import KnowledgeBase.Extraction
import KnowledgeBase.Table

/-! A chart as a table: a caption, a header, and the stored points of its series. A cell that holds
a point says which beside what the code stores. -/

namespace KnowledgeBase.Artifact.Charts

def chartNotice : Text := "values read from the chart's own data".toList

/-- How `_number` writes a stored value, as a percentage or a date where the format code says so,
and which codes are dates. -/
structure NumberFormat where
  number : Text → Bool → Bool → Text
  isDateFormat : Text → Bool

structure Cache where
  ptCount : Option Nat := none
  points : List (Nat × Text)
  formatCode : Text := []

/-- A category or value reference: the caches it may hold and the cells it names. -/
structure Reference where
  numCache : Option Cache := none
  strCache : Option Cache := none
  numLit : Option Cache := none
  strLit : Option Cache := none
  formula : Option Text := none

def Cache.size (c : Cache) : Nat := max (c.ptCount.getD 0) ((c.points.map (·.1 + 1)).max?.getD 0)

/-- The point stored at an index; the last one that names it. -/
def Cache.point (c : Cache) (i : Nat) : Text := ((c.points.reverse.find? (·.1 = i)).map (·.2)).getD []

def Cache.values (c : Cache) : List Text := (List.range c.size).map c.point

def Reference.found (r : Reference) : Option Cache :=
  r.numCache.orElse fun _ => r.strCache.orElse fun _ => r.numLit.orElse fun _ => r.strLit

/-- The stored points in index order, and the format code. -/
def cache (node : Option Reference) : List Text × Text :=
  match node.bind Reference.found with
  | none => ([], [])
  | some c => (c.values, c.formatCode)

/-- A gap stays a gap: each stored point is at its own index. -/
theorem Cache.values_getD (c : Cache) (i : Nat) : c.values.getD i [] = c.point i := by
  rw [Cache.values, List.getD_eq_getElem?_getD, List.getElem?_map]
  by_cases h : i < c.size
  · simp [h]
  · have hnone : c.points.reverse.find? (·.1 = i) = none := by
      rw [List.find?_eq_none]
      intro p hp hi
      have hmem : p.1 + 1 ∈ c.points.map (·.1 + 1) := List.mem_map_of_mem (List.mem_reverse.mp hp)
      have hle : p.1 + 1 ≤ (c.points.map (·.1 + 1)).max?.getD 0 := List.le_max?_getD_of_mem hmem
      have hsize : p.1 + 1 ≤ c.size := hle.trans (Nat.le_max_right _ _)
      have heq : p.1 = i := by simpa using hi
      omega
    simp [h, Cache.point, hnone]

/-- A `c:ser` of a plot; `titleRuns` is the text written in its title itself. -/
structure SeriesXml where
  titleRuns : Text := []
  tx : Option Reference := none
  cat : Option Reference := none
  val : Option Reference := none
  xVal : Option Reference := none
  yVal : Option Reference := none

structure PlotElement where
  tag : String
  barDir : Option String := none
  series : List SeriesXml

/-- The plot area of a chart, with the titles of its axes. -/
structure ChartXml where
  title : Text := []
  plot : List PlotElement
  axes : List (String × Text) := []

structure Values where
  points : List Text
  percent : Bool
  date : Bool
  deriving DecidableEq

structure Series where
  name : Text
  kind : String
  cat : Values
  val : Values
  x : Values
  y : Values
  deriving DecidableEq

/-- A stored value: the series, the index and whether it is a `yVal`. -/
structure Point where
  series : Nat
  index : Nat
  ofY : Bool
  deriving DecidableEq

structure Cell where
  text : Text
  point : Option Point := none

variable (u : Tables) (fmt : NumberFormat) (resolve : Option (Text → Option (List Text)))

def chartKinds : List (String × String) :=
  [("barChart", "bar"), ("bar3DChart", "bar"), ("lineChart", "line"), ("line3DChart", "line"),
   ("pieChart", "pie"), ("pie3DChart", "pie"), ("ofPieChart", "pie"), ("doughnutChart", "doughnut"),
   ("areaChart", "area"), ("area3DChart", "area"), ("scatterChart", "scatter"),
   ("bubbleChart", "bubble"), ("radarChart", "radar"), ("stockChart", "stock"),
   ("surfaceChart", "surface"), ("surface3DChart", "surface")]

def kindOf (el : PlotElement) : String :=
  let kind := ((chartKinds.find? (·.1 = el.tag)).map (·.2)).getD
    (String.ofList ((el.tag.toList.take (el.tag.length - 5)).map Char.toLower))
  if kind = "bar" then (if el.barDir = some "bar" then "bar" else "column") else kind

/-- `resolve(ref) or []`, for a reference that names cells. -/
def resolved (node : Option Reference) : List Text :=
  match resolve, node.bind fun r => truthy r.formula with
  | some f, some ref => (f ref).getD []
  | _, _ => []

def readValues (node : Option Reference) : Values :=
  let (stored, code) := cache node
  { points := if stored ≠ [] then stored else resolved resolve node
    percent := code.contains '%'
    date := fmt.isDateFormat code }

def seriesName (ser : SeriesXml) : Text :=
  trim u (if ser.titleRuns ≠ [] then ser.titleRuns
    else match (cache ser.tx).1 with
      | name :: _ => name
      | [] => join " " ((resolved resolve ser.tx).filter (· ≠ [])))

/-- The plots among the elements of the plot area. -/
def plots (chart : ChartXml) : List PlotElement :=
  chart.plot.filter fun el => "Chart".toList.isSuffixOf el.tag.toList

def readSeries (chart : ChartXml) : List Series :=
  (plots chart).flatMap fun el => el.series.map fun ser =>
    { name := seriesName u resolve ser, kind := kindOf el, cat := readValues fmt resolve ser.cat,
      val := readValues fmt resolve ser.val, x := readValues fmt resolve ser.xVal,
      y := readValues fmt resolve ser.yVal }

def axisTitle (chart : ChartXml) (kind : String) (index : Nat) : Text :=
  (((chart.axes.filter (·.1 = kind))[index]?).map (·.2)).getD []

def orElse (text other : Text) : Text := if text ≠ [] then text else other

def caption (chart : ChartXml) : Text :=
  let kinds := ((plots chart).map kindOf).foldl
    (fun kinds kind => if kind ∈ kinds then kinds else kinds ++ [kind]) []
  (if chart.title ≠ [] then "Chart: ".toList ++ chart.title else "Chart".toList) ++ " (".toList ++
    join ", " (kinds.map String.toList) ++ "; ".toList ++ chartNotice ++ ")".toList

/-- A position number. -/
def position (i : Nat) : Text := (toString (i + 1)).toList

/-- One row a point, for charts with x values. -/
def pointRows (series : List Series) : List (List Cell) :=
  series.zipIdx.flatMap fun (s, k) => (s.x.points.zip s.y.points).zipIdx.map fun (xy, i) =>
    [{ text := s.name }, { text := fmt.number xy.1 s.x.percent s.x.date },
     { text := fmt.number xy.2 s.y.percent false, point := some ⟨k, i, true⟩ }]

/-- The categories of the first series that has some. -/
def leadLabels (series : List Series) : List Text :=
  match series.find? (·.cat.points ≠ []) with
  | none => []
  | some lead => lead.cat.points.map fun v => fmt.number v false lead.cat.date

def leadLabel (series : List Series) (i : Nat) : Text :=
  (leadLabels fmt series).getD i (position i)

def valueCell (i : Nat) (s : Series × Nat) : Cell :=
  match s.1.val.points[i]? with
  | none => { text := [] }
  | some v => { text := fmt.number v s.1.val.percent false, point := some ⟨s.2, i, false⟩ }

def categoryRow (series : List Series) (i : Nat) : List Cell :=
  { text := leadLabel fmt series i } :: series.zipIdx.map (valueCell fmt i)

def categoryCount (series : List Series) : Nat :=
  max (leadLabels fmt series).length ((series.map (·.val.points.length)).max?.getD 0)

/-- The header over a series. -/
def columnName (s : Series × Nat) : Text :=
  orElse s.1.name (s!"Series {s.2 + 1}".toList)

def hasX (series : List Series) : Bool := series.any (·.x.points ≠ [])

def bodyRows (chart : ChartXml) (series : List Series) : List (List Cell) :=
  if hasX series then
    [{ text := "Series".toList }, { text := orElse (axisTitle chart "valAx" 0) "X".toList },
      { text := orElse (axisTitle chart "valAx" 1) "Y".toList }] :: pointRows fmt series
  else
    ({ text := orElse (axisTitle chart "catAx" 0) (axisTitle chart "dateAx" 0) } ::
      series.zipIdx.map fun s => { text := columnName s }) ::
      (List.range (categoryCount fmt series)).map (categoryRow fmt series)

def padTo (width : Nat) (row : List Cell) : List Cell :=
  row ++ List.replicate (width - row.length) { text := [] }

def chartRows (chart : ChartXml) : Option (List (List Cell)) :=
  let series := readSeries u fmt resolve chart
  if series.any (fun s => s.val.points ≠ [] || s.y.points ≠ []) then
    let rows := bodyRows fmt chart series
    let width := (rows.map List.length).max?.getD 0
    some (padTo width [{ text := caption chart }] :: rows.map (padTo width))
  else none

section Points

/-- The points the cells hold, row by row. -/
def pointsOf (rows : List (List Cell)) : List Point := rows.flatten.filterMap (·.point)

@[simp] theorem pointsOf_cons (row : List Cell) (rows : List (List Cell)) :
    pointsOf (row :: rows) = row.filterMap (·.point) ++ pointsOf rows := by
  simp [pointsOf]

theorem padTo_points (width : Nat) (row : List Cell) :
    (padTo width row).filterMap (·.point) = row.filterMap (·.point) := by
  simp [padTo, List.filterMap_replicate]

theorem pointsOf_pad (width : Nat) (rows : List (List Cell)) :
    pointsOf (rows.map (padTo width)) = pointsOf rows := by
  induction rows with
  | nil => rfl
  | cons row rows ih => rw [List.map_cons, pointsOf_cons, pointsOf_cons, padTo_points, ih]

/-- A cell with a point is not padding. -/
theorem padTo_point {width c : Nat} {row : List Cell} {cell : Cell} {p : Point}
    (h : (padTo width row)[c]? = some cell) (hp : cell.point = some p) : row[c]? = some cell := by
  by_cases hc : c < row.length
  · rwa [padTo, List.getElem?_append_left hc] at h
  · rw [padTo, List.getElem?_append_right (Nat.le_of_not_lt hc)] at h
    have hpad := (List.mem_replicate.mp (List.mem_of_getElem? h)).2
    rw [hpad] at hp
    cases hp

variable {series : List Series}

theorem categoryRow_point {i c : Nat} {cell : Cell} {p : Point}
    (h : (categoryRow fmt series i)[c]? = some cell) (hp : cell.point = some p) :
    ∃ k s v, c = k + 1 ∧ series[k]? = some s ∧ s.val.points[i]? = some v ∧ p = ⟨k, i, false⟩ ∧
      cell.text = fmt.number v s.val.percent false := by
  cases c with
  | zero =>
    obtain rfl : _ = cell := by simpa [categoryRow] using h
    cases hp
  | succ k =>
    rw [categoryRow, List.getElem?_cons_succ, List.getElem?_map, List.getElem?_zipIdx] at h
    cases hs : series[k]? with
    | none => simp [hs] at h
    | some s =>
      obtain rfl : valueCell fmt i (s, k) = cell := by simpa [hs] using h
      unfold valueCell at hp ⊢
      cases hv : s.val.points[i]? with
      | none => simp [hv] at hp
      | some v =>
        obtain rfl : _ = p := by simpa [hv] using hp
        exact ⟨k, s, v, rfl, hs, hv, rfl, rfl⟩

theorem mem_pointRows {row : List Cell} (h : row ∈ pointRows fmt series) :
    ∃ (k : Nat) (s : Series) (i : Nat) (x y : Text), series[k]? = some s ∧
      s.x.points[i]? = some x ∧ s.y.points[i]? = some y ∧
      row = [{ text := s.name }, { text := fmt.number x s.x.percent s.x.date },
        { text := fmt.number y s.y.percent false, point := some ⟨k, i, true⟩ }] := by
  obtain ⟨⟨s, k⟩, hs, hrow⟩ := List.mem_flatMap.mp h
  obtain ⟨⟨⟨x, y⟩, i⟩, hxy, rfl⟩ := List.mem_map.mp hrow
  have hzip := List.mem_zipIdx_iff_getElem?.mp hxy
  rw [List.getElem?_zip_eq_some] at hzip
  exact ⟨k, s, i, x, y, List.mem_zipIdx_iff_getElem?.mp hs, hzip.1, hzip.2, rfl⟩

theorem nodup_range_zipIdx {α : Type*} (l : List α) : (l.zipIdx.map Prod.snd).Nodup := by
  have h : l.zipIdx.map Prod.snd = List.range l.length := by
    rw [List.zipIdx_map_snd, List.range_eq_range']
  rw [h]
  exact List.nodup_range

/-- The points of the category rows, each once: those of the `val` of each series. -/
theorem categoryRows_points :
    (pointsOf ((List.range (categoryCount fmt series)).map (categoryRow fmt series))).Nodup ∧
    ∀ p, p ∈ pointsOf ((List.range (categoryCount fmt series)).map (categoryRow fmt series)) ↔
      p.ofY = false ∧ ∃ s, series[p.series]? = some s ∧ p.index < s.val.points.length := by
  have hrow : ∀ i, (categoryRow fmt series i).filterMap (·.point) =
      series.zipIdx.filterMap fun s => (valueCell fmt i s).point := by
    intro i
    simp [categoryRow, List.filterMap_map]
  have hpoint : ∀ i s p, (valueCell fmt i s).point = some p ↔
      p = ⟨s.2, i, false⟩ ∧ i < s.1.val.points.length := by
    intro i s p
    unfold valueCell
    cases hv : s.1.val.points[i]? with
    | none => simp [List.getElem?_eq_none_iff.mp hv]
    | some v => simp [(List.getElem?_eq_some_iff.mp hv).1, eq_comm]
  have hall : pointsOf ((List.range (categoryCount fmt series)).map (categoryRow fmt series)) =
      (List.range (categoryCount fmt series)).flatMap fun i =>
        series.zipIdx.filterMap fun s => (valueCell fmt i s).point := by
    rw [pointsOf, ← List.flatMap_def, List.filterMap_flatMap]
    simp only [hrow]
  rw [hall]
  constructor
  · rw [List.nodup_flatMap]
    constructor
    · intro i _
      apply List.Nodup.of_map (·.series)
      refine List.Sublist.nodup (Table.map_filterMap_sublist fun s _ p hp => ?_)
        (nodup_range_zipIdx series)
      rw [((hpoint i s p).mp hp).1]
    · refine (List.nodup_range (n := categoryCount fmt series)).imp ?_
      intro i j hij p hi hj
      obtain ⟨s, -, hs⟩ := List.mem_filterMap.mp hi
      obtain ⟨s', -, hs'⟩ := List.mem_filterMap.mp hj
      have h1 := ((hpoint i s p).mp hs).1
      have h2 := ((hpoint j s' p).mp hs').1
      rw [h1] at h2
      exact hij (congrArg Point.index h2)
  · intro p
    simp only [List.mem_flatMap, List.mem_range, List.mem_filterMap, hpoint]
    constructor
    · rintro ⟨i, -, ⟨s, k⟩, hs, rfl, hlt⟩
      exact ⟨rfl, s, List.mem_zipIdx_iff_getElem?.mp hs, hlt⟩
    · rintro ⟨hy, s, hs, hlt⟩
      have hmax : s.val.points.length ≤ (series.map (·.val.points.length)).max?.getD 0 :=
        List.le_max?_getD_of_mem (List.mem_map_of_mem (List.mem_of_getElem? hs))
      refine ⟨p.index, ?_, (s, p.series), List.mem_zipIdx_iff_getElem?.mpr hs, ?_, hlt⟩
      · exact (hlt.trans_le hmax).trans_le (Nat.le_max_right _ _)
      · cases p
        simp only at hy
        rw [hy]

/-- The points of the point rows, each once: those of `y` that have an `x` beside them. -/
theorem pointRows_points :
    (pointsOf (pointRows fmt series)).Nodup ∧ ∀ p, p ∈ pointsOf (pointRows fmt series) ↔
      p.ofY = true ∧ ∃ s, series[p.series]? = some s ∧ p.index < s.x.points.length ∧
        p.index < s.y.points.length := by
  have hall : pointsOf (pointRows fmt series) = series.zipIdx.flatMap fun s =>
      (s.1.x.points.zip s.1.y.points).zipIdx.map fun xy => ⟨s.2, xy.2, true⟩ := by
    have hone : ∀ (k : Nat) (s : Series) (zs : List ((Text × Text) × Nat)),
        pointsOf (zs.map fun (xy, i) => [{ text := s.name },
          { text := fmt.number xy.1 s.x.percent s.x.date },
          { text := fmt.number xy.2 s.y.percent false, point := some ⟨k, i, true⟩ }]) =
        zs.map fun xy => ⟨k, xy.2, true⟩ := by
      intro k s zs
      induction zs with
      | nil => rfl
      | cons z zs ih => simp [ih]
    have happend : ∀ rows rows' : List (List Cell),
        pointsOf (rows ++ rows') = pointsOf rows ++ pointsOf rows' := by
      simp [pointsOf]
    unfold pointRows
    induction series.zipIdx with
    | nil => rfl
    | cons s rest ih => rw [List.flatMap_cons, happend, ih, List.flatMap_cons, hone]
  rw [hall]
  constructor
  · rw [List.nodup_flatMap]
    constructor
    · intro s _
      apply List.Nodup.of_map (·.index)
      rw [List.map_map]
      exact nodup_range_zipIdx _
    · refine (List.pairwise_map.mp (nodup_range_zipIdx series)).imp ?_
      intro s s' hne p hp hp'
      obtain ⟨z, -, rfl⟩ := List.mem_map.mp hp
      obtain ⟨z', -, heq⟩ := List.mem_map.mp hp'
      exact hne (congrArg Point.series heq).symm
  · intro p
    simp only [List.mem_flatMap, List.mem_map]
    constructor
    · rintro ⟨⟨s, k⟩, hs, ⟨xy, i⟩, hxy, rfl⟩
      have hlt := (List.getElem?_eq_some_iff.mp (List.mem_zipIdx_iff_getElem?.mp hxy)).1
      rw [List.length_zip, lt_min_iff] at hlt
      exact ⟨rfl, s, List.mem_zipIdx_iff_getElem?.mp hs, hlt⟩
    · rintro ⟨hy, s, hs, hx, hlt⟩
      have hzip : p.index < (s.x.points.zip s.y.points).length := by
        rw [List.length_zip]
        omega
      refine ⟨(s, p.series), List.mem_zipIdx_iff_getElem?.mpr hs,
        ((s.x.points.zip s.y.points)[p.index], p.index),
        List.mem_zipIdx_iff_getElem?.mpr (List.getElem?_eq_getElem hzip), ?_⟩
      cases p
      simp only at hy
      rw [hy]

end Points

section Kept

/-- A stored value stands in one cell, as its text, with what belongs beside it. -/
structure Kept (rows : List (List Cell)) (p : Point) (value : Text)
    (beside : List Text → Nat → Prop) : Prop where
  once : (pointsOf rows).count p = 1
  placed : ∀ row ∈ rows, ∀ (c : Nat) (cell : Cell), row[c]? = some cell → cell.point = some p →
    cell.text = value ∧ beside (row.map (·.text)) c

/-- The label of an index by the series' own categories, or its position. -/
def ownLabel (s : Series) (i : Nat) : Text :=
  match s.cat.points[i]? with
  | none => position i
  | some v => fmt.number v false s.cat.date

def ownX (s : Series) (i : Nat) : Text :=
  match s.x.points[i]? with
  | none => position i
  | some x => fmt.number x s.x.percent s.x.date

/-- In the column of a series, under its name, in the row of its own label. -/
def InColumn (rows : List (List Cell)) (k : Nat) (s : Series) (i : Nat) (row : List Text)
    (c : Nat) : Prop :=
  c = k + 1 ∧ (rows[1]?.bind (·[c]?)).map (·.text) = some (columnName (s, k)) ∧
    row[0]? = some (ownLabel fmt s i)

/-- In a row with the name of the series and its own x value. -/
def InRow (s : Series) (i : Nat) (row : List Text) (_ : Nat) : Prop :=
  row[0]? = some s.name ∧ row[1]? = some (ownX fmt s i)

def ValuesKept (rows : List (List Cell)) (series : List Series) : Prop :=
  ∀ k s, series[k]? = some s →
    (∀ i v, s.val.points[i]? = some v → v ≠ [] →
      Kept rows ⟨k, i, false⟩ (fmt.number v s.val.percent false) (InColumn fmt rows k s i)) ∧
    ∀ i v, s.y.points[i]? = some v → v ≠ [] →
      Kept rows ⟨k, i, true⟩ (fmt.number v s.y.percent false) (InRow fmt s i)

/-- With x values the series are all points, and each point has its x; without, no series has a
`yVal`, and the first categories label each value as its own series does. -/
def OneForm (series : List Series) : Prop :=
  if hasX series then
    (∀ s ∈ series, ∀ v ∈ s.val.points, v = []) ∧
      ∀ s ∈ series, ∀ i v, s.y.points[i]? = some v → v ≠ [] → i < s.x.points.length
  else
    (∀ s ∈ series, ∀ v ∈ s.y.points, v = []) ∧
      ∀ s ∈ series, ∀ i v, s.val.points[i]? = some v → v ≠ [] →
        leadLabel fmt series i = ownLabel fmt s i

variable {fmt} {series : List Series} {rows : List (List Cell)}

theorem Kept.mem {p : Point} {value : Text} {beside : List Text → Nat → Prop}
    (h : Kept rows p value beside) : p ∈ pointsOf rows :=
  List.count_pos_iff.mp (by rw [h.once]; exact Nat.zero_lt_one)

/-- The rows of a table: those of its body, padded under a caption. -/
structure Tabled (rows body : List (List Cell)) : Prop where
  points : pointsOf rows = pointsOf body
  cells : ∀ row ∈ rows, ∀ (c : Nat) (cell : Cell) p, row[c]? = some cell → cell.point = some p →
    ∃ r ∈ body, r[c]? = some cell ∧ r.map (·.text) <+: row.map (·.text)
  header : ∀ (c : Nat) (cell : Cell), (body[0]?.bind (·[c]?)) = some cell →
    rows[1]?.bind (·[c]?) = some cell

theorem tabled_pad (width : Nat) (text : Text) (body : List (List Cell)) :
    Tabled (padTo width [{ text }] :: body.map (padTo width)) body where
  points := by
    rw [pointsOf_cons, padTo_points, pointsOf_pad]
    simp
  cells := by
    intro row hrow c cell p hget hp
    rcases List.mem_cons.mp hrow with rfl | hrow
    · have hcap := padTo_point hget hp
      rw [List.mem_singleton.mp (List.mem_of_getElem? hcap)] at hp
      cases hp
    · obtain ⟨r, hr, rfl⟩ := List.mem_map.mp hrow
      refine ⟨r, hr, padTo_point hget hp, ?_⟩
      rw [padTo, List.map_append]
      exact List.prefix_append _ _
  header := by
    intro c cell h
    obtain ⟨r, hr, hcell⟩ := Option.bind_eq_some_iff.mp h
    have hlt := (List.getElem?_eq_some_iff.mp hcell).1
    simp [hr, padTo, List.getElem?_append_left hlt, hcell]

theorem getElem?_of_prefix {α : Type*} {l l' : List α} {n : Nat} {a : α} (h : l <+: l')
    (ha : l[n]? = some a) : l'[n]? = some a := by
  obtain ⟨rest, rfl⟩ := h
  rwa [List.getElem?_append_left (List.getElem?_eq_some_iff.mp ha).1]

theorem pointForm_kept_iff {header : List Cell} (hheader : header.filterMap (·.point) = [])
    (h : Tabled rows (header :: pointRows fmt series)) : ValuesKept fmt rows series ↔
      (∀ s ∈ series, ∀ v ∈ s.val.points, v = []) ∧
        ∀ s ∈ series, ∀ i v, s.y.points[i]? = some v → v ≠ [] → i < s.x.points.length := by
  obtain ⟨hnodup, hmem⟩ := @pointRows_points fmt series
  have hpoints : pointsOf rows = pointsOf (pointRows fmt series) := by
    rw [h.points, pointsOf_cons, hheader, List.nil_append]
  constructor
  · intro hkept
    constructor
    · intro s hs v hv
      obtain ⟨k, hk⟩ := List.mem_iff_getElem?.mp hs
      obtain ⟨i, hi⟩ := List.mem_iff_getElem?.mp hv
      by_contra hne
      have hin := ((hkept k s hk).1 i v hi hne).mem
      rw [hpoints, hmem] at hin
      cases hin.1
    · intro s hs i v hv hne
      obtain ⟨k, hk⟩ := List.mem_iff_getElem?.mp hs
      have hin := ((hkept k s hk).2 i v hv hne).mem
      rw [hpoints, hmem] at hin
      obtain ⟨-, s', hs', hx, -⟩ := hin
      obtain rfl : s = s' := by simpa [hk] using hs'
      exact hx
  · rintro ⟨hval, hy⟩ k s hk
    have hs := List.mem_of_getElem? hk
    refine ⟨fun i v hv hne => absurd (hval s hs v (List.mem_of_getElem? hv)) hne, ?_⟩
    intro i v hv hne
    constructor
    · rw [hpoints]
      apply List.count_eq_one_of_mem hnodup
      exact (hmem _).mpr ⟨rfl, s, hk, hy s hs i v hv hne, (List.getElem?_eq_some_iff.mp hv).1⟩
    · intro row hrow c cell hcell hp
      obtain ⟨r, hr, hget, hprefix⟩ := h.cells row hrow c cell _ hcell hp
      rcases List.mem_cons.mp hr with rfl | hr
      · have hnone := List.filterMap_eq_nil_iff.mp hheader cell (List.mem_of_getElem? hget)
        rw [hp] at hnone
        cases hnone
      · obtain ⟨k', s', i', x, y, hs', hx', hy', rfl⟩ := mem_pointRows fmt hr
        -- the third cell alone holds a point
        have hthird : cell = { text := fmt.number y s'.y.percent false, point := some ⟨k', i', true⟩ } := by
          match c, hget with
          | 0, hget => simp at hget; rw [← hget] at hp; cases hp
          | 1, hget => simp at hget; rw [← hget] at hp; cases hp
          | 2, hget => simpa using hget.symm
        rw [hthird] at hp ⊢
        obtain ⟨rfl, rfl⟩ : k' = k ∧ i' = i := by simpa using hp
        obtain rfl : s' = s := by simpa [hs'] using hk
        obtain rfl : y = v := by simpa [hy'] using hv
        refine ⟨rfl, getElem?_of_prefix hprefix rfl, getElem?_of_prefix hprefix ?_⟩
        simp [ownX, hx']

theorem categoryForm_kept_iff {first : Cell} (hfirst : first.point = none)
    (h : Tabled rows ((first :: series.zipIdx.map fun s => { text := columnName s }) ::
      (List.range (categoryCount fmt series)).map (categoryRow fmt series))) :
    ValuesKept fmt rows series ↔
      (∀ s ∈ series, ∀ v ∈ s.y.points, v = []) ∧
        ∀ s ∈ series, ∀ i v, s.val.points[i]? = some v → v ≠ [] →
          leadLabel fmt series i = ownLabel fmt s i := by
  obtain ⟨hnodup, hmem⟩ := @categoryRows_points fmt series
  have hheader : ∀ cell ∈ first :: series.zipIdx.map (fun s => ({ text := columnName s } : Cell)),
      cell.point = none := by
    intro cell hcell
    rcases List.mem_cons.mp hcell with rfl | hcell
    · exact hfirst
    · obtain ⟨s, -, rfl⟩ := List.mem_map.mp hcell
      rfl
  have hpoints : pointsOf rows =
      pointsOf ((List.range (categoryCount fmt series)).map (categoryRow fmt series)) := by
    rw [h.points, pointsOf_cons, List.filterMap_eq_nil_iff.mpr hheader, List.nil_append]
  -- the cell of a point, wherever it is, is in the row of its index and the column of its series
  have hcells : ∀ row ∈ rows, ∀ (c : Nat) (cell : Cell) p, row[c]? = some cell →
      cell.point = some p → ∃ s v, c = p.series + 1 ∧ series[p.series]? = some s ∧
        s.val.points[p.index]? = some v ∧ cell.text = fmt.number v s.val.percent false ∧
        (row.map (·.text))[0]? = some (leadLabel fmt series p.index) := by
    intro row hrow c cell p hcell hp
    obtain ⟨r, hr, hget, hprefix⟩ := h.cells row hrow c cell p hcell hp
    rcases List.mem_cons.mp hr with rfl | hr
    · rw [hheader cell (List.mem_of_getElem? hget)] at hp
      cases hp
    · obtain ⟨i, -, rfl⟩ := List.mem_map.mp hr
      obtain ⟨k, s, v, rfl, hs, hv, rfl, htext⟩ := categoryRow_point fmt hget hp
      exact ⟨s, v, rfl, hs, hv, htext, getElem?_of_prefix hprefix rfl⟩
  constructor
  · intro hkept
    constructor
    · intro s hs v hv
      obtain ⟨k, hk⟩ := List.mem_iff_getElem?.mp hs
      obtain ⟨i, hi⟩ := List.mem_iff_getElem?.mp hv
      by_contra hne
      have hin := ((hkept k s hk).2 i v hi hne).mem
      rw [hpoints, hmem] at hin
      cases hin.1
    · intro s hs i v hv hne
      obtain ⟨k, hk⟩ := List.mem_iff_getElem?.mp hs
      have hplaced := (hkept k s hk).1 i v hv hne
      obtain ⟨cell, hcell, hp⟩ := List.mem_filterMap.mp hplaced.mem
      obtain ⟨row, hrow, hcell⟩ := List.mem_flatten.mp hcell
      obtain ⟨c, hc⟩ := List.mem_iff_getElem?.mp hcell
      obtain ⟨-, -, -, hlabel⟩ := hplaced.placed row hrow c cell hc hp
      obtain ⟨-, -, -, -, -, -, hlead⟩ := hcells row hrow c cell _ hc hp
      exact Option.some.inj (hlead.symm.trans hlabel)
  · rintro ⟨hy, hlabels⟩ k s hk
    have hs := List.mem_of_getElem? hk
    refine ⟨?_, fun i v hv hne => absurd (hy s hs v (List.mem_of_getElem? hv)) hne⟩
    intro i v hv hne
    constructor
    · rw [hpoints]
      apply List.count_eq_one_of_mem hnodup
      exact (hmem _).mpr ⟨rfl, s, hk, (List.getElem?_eq_some_iff.mp hv).1⟩
    · intro row hrow c cell hcell hp
      obtain ⟨s', v', rfl, hs', hv', htext, hlead⟩ := hcells row hrow c cell _ hcell hp
      obtain rfl : s' = s := by simpa [hs'] using hk
      obtain rfl : v' = v := by simpa [hv'] using hv
      refine ⟨htext, rfl, ?_, hlead.trans (congrArg some (hlabels s' hs i v' hv hne))⟩
      rw [h.header (k + 1) { text := columnName (s', k) } (by simp [hk])]
      rfl

end Kept

/-- The stored values keep their series and their category exactly where the chart is all in one
form. -/
theorem chart_values_kept_iff {chart : ChartXml} {rows : List (List Cell)}
    (h : chartRows u fmt resolve chart = some rows) :
    ValuesKept fmt rows (readSeries u fmt resolve chart) ↔
      OneForm fmt (readSeries u fmt resolve chart) := by
  unfold chartRows at h
  dsimp only at h
  split at h
  · obtain rfl := Option.some.inj h
    generalize hseries : readSeries u fmt resolve chart = series
    have htabled := tabled_pad
      (((bodyRows fmt chart series).map List.length).max?.getD 0) (caption chart)
      (bodyRows fmt chart series)
    unfold OneForm
    by_cases hx : hasX series = true
    · rw [if_pos hx]
      refine pointForm_kept_iff ?_ (by simpa only [bodyRows, if_pos hx] using htabled)
      simp
    · rw [if_neg hx]
      exact categoryForm_kept_iff rfl (by simpa only [bodyRows, if_neg hx] using htabled)
  · cases h

/-- Whole numbers are written as they are stored. -/
def plainFormat : NumberFormat := { number := fun v _ _ => v, isDateFormat := fun _ => false }

def stored (points : List String) : Option Reference :=
  some { numCache := some { points := points.zipIdx.map fun p => (p.2, p.1.toList) } }

def columns : PlotElement :=
  { tag := "barChart"
    series := [{ titleRuns := "SO2".toList, cat := stored ["2019", "2020"],
                 val := stored ["341", "298"] }] }

def emissions : ChartXml := { plot := [columns] }

theorem emissions_kept : ∃ rows, chartRows asciiTables plainFormat none emissions = some rows ∧
    ValuesKept plainFormat rows (readSeries asciiTables plainFormat none emissions) := by
  have hsome : (chartRows asciiTables plainFormat none emissions).isSome = true := by decide +kernel
  obtain ⟨rows, hrows⟩ := Option.isSome_iff_exists.mp hsome
  refine ⟨rows, hrows, (chart_values_kept_iff asciiTables plainFormat none hrows).mpr ?_⟩
  have hseries : readSeries asciiTables plainFormat none emissions = [
      { name := "SO2".toList, kind := "column", cat := ⟨["2019".toList, "2020".toList], false, false⟩,
        val := ⟨["341".toList, "298".toList], false, false⟩, x := ⟨[], false, false⟩,
        y := ⟨[], false, false⟩ }] := by decide +kernel
  rw [hseries]
  refine ⟨by simp, ?_⟩
  intro s hs i v hv _
  obtain rfl := List.mem_singleton.mp hs
  have hlt := (List.getElem?_eq_some_iff.mp hv).1
  match i, hlt with
  | 0, _ => rfl
  | 1, _ => rfl

/-- Columns with a line of points drawn over them. -/
def mixed : ChartXml :=
  { plot := [columns,
      { tag := "scatterChart"
        series := [{ titleRuns := "Limit".toList, xVal := stored ["1", "2"],
                     yVal := stored ["300", "300"] }] }] }

/-- The values of the columns are in no cell. -/
theorem columns_are_dropped : ∃ rows, chartRows asciiTables plainFormat none mixed = some rows ∧
    ¬ ValuesKept plainFormat rows (readSeries asciiTables plainFormat none mixed) := by
  have hsome : (chartRows asciiTables plainFormat none mixed).isSome = true := by decide +kernel
  have hnone : ∀ rows ∈ chartRows asciiTables plainFormat none mixed,
      (⟨0, 0, false⟩ : Point) ∉ pointsOf rows := by decide +kernel
  obtain ⟨rows, hrows⟩ := Option.isSome_iff_exists.mp hsome
  refine ⟨rows, hrows, fun hkept => ?_⟩
  have hval : (readSeries asciiTables plainFormat none mixed)[0]?.bind (·.val.points[0]?) =
      some "341".toList := by decide +kernel
  obtain ⟨s, hs, hv⟩ := Option.bind_eq_some_iff.mp hval
  exact hnone rows hrows ((hkept 0 s hs).1 0 _ hv (by decide)).mem

end KnowledgeBase.Artifact.Charts
