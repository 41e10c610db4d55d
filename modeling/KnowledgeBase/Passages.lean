import KnowledgeBase.Chunker

/-! The passages of a document as a list of entries, each cut into texts on its own: what the
loops of the chunker append one after the other, without the lists they keep. -/

namespace KnowledgeBase.Artifact

/-- What one call appends: the texts of a section, a table or a figure. -/
structure Entry where
  origin : Origin
  texts : List Text
  page : Int
  heading : Option Text

def Origin.isTable : Origin → Bool
  | .table _ => true
  | _ => false

namespace Entry

def chunk (e : Entry) (index : Nat) (text : Text) : Chunk :=
  { index, text, pageNumber := some e.page, sectionHeading := e.heading,
    isTable := e.origin.isTable, origin := e.origin }

def append (chunks : List Chunk) (e : Entry) : List Chunk :=
  Chunker.appendChunks chunks e.texts e.page e.heading e.origin.isTable e.origin

end Entry

def numbered (es : List Entry) : List Chunk := es.foldl Entry.append []

section Numbered

theorem append_eq (chunks : List Chunk) (e : Entry) :
    e.append chunks = chunks ++ e.texts.mapIdx fun i text => e.chunk (chunks.length + i) text := by
  have h : ∀ (texts : List Text) (chunks : List Chunk),
      Chunker.appendChunks chunks texts e.page e.heading e.origin.isTable e.origin =
        chunks ++ texts.mapIdx fun i text => e.chunk (chunks.length + i) text := by
    intro texts
    induction texts with
    | nil => simp [Chunker.appendChunks]
    | cons text texts ih =>
      intro chunks
      rw [Chunker.appendChunks, List.foldl_cons, ← Chunker.appendChunks, ih]
      simp [List.mapIdx_cons, Entry.chunk, Nat.add_comm, Nat.add_left_comm]
  exact h e.texts chunks

theorem foldl_append_eq (es : List Entry) (chunks : List Chunk) :
    ∃ new, es.foldl Entry.append chunks = chunks ++ new ∧
      new.map (·.index) = List.range' chunks.length new.length := by
  induction es generalizing chunks with
  | nil => exact ⟨[], by simp⟩
  | cons e es ih =>
    obtain ⟨new, hnew, hidx⟩ := ih (e.append chunks)
    rw [append_eq] at hnew hidx
    refine ⟨e.texts.mapIdx (fun i text => e.chunk (chunks.length + i) text) ++ new, ?_, ?_⟩
    · rw [List.foldl_cons, append_eq, hnew, List.append_assoc]
    · rw [List.map_append, hidx]
      simp only [List.length_append, List.length_mapIdx, ← List.range'_append_1]
      congr 1
      apply List.ext_getElem <;> simp [Entry.chunk]

/-- The indices are 0, 1, 2 and so on. -/
theorem numbered_index (es : List Entry) :
    (numbered es).map (·.index) = List.range (numbered es).length := by
  obtain ⟨new, hnew, hidx⟩ := foldl_append_eq es []
  rw [numbered, hnew, List.nil_append, hidx, List.length_nil, List.range_eq_range']

variable {β : Type*}

/-- What is read off the chunks without their index is read off the entries. -/
theorem numbered_filterMap {f : Chunk → Option β} (es : List Entry)
    (hf : ∀ e : Entry, ∀ i text, f (e.chunk i text) = f (e.chunk 0 text)) :
    (numbered es).filterMap f = es.flatMap fun e => e.texts.filterMap fun t => f (e.chunk 0 t) := by
  have hone : ∀ (e : Entry) (n : Nat), (e.texts.mapIdx fun i t => e.chunk (n + i) t).filterMap f =
      e.texts.filterMap fun t => f (e.chunk 0 t) := by
    intro e n
    rw [List.mapIdx_eq_zipIdx_map, List.filterMap_map]
    have hcomp : (f ∘ fun p : Text × Nat => e.chunk (n + p.2) p.1) =
        (fun t => f (e.chunk 0 t)) ∘ Prod.fst := by
      funext p
      exact hf e _ _
    rw [hcomp, ← List.filterMap_map]
    simp
  have h : ∀ chunks : List Chunk, (es.foldl Entry.append chunks).filterMap f =
      chunks.filterMap f ++ es.flatMap fun e => e.texts.filterMap fun t => f (e.chunk 0 t) := by
    induction es with
    | nil => simp
    | cons e es ih =>
      intro chunks
      rw [List.foldl_cons, ih, append_eq, List.filterMap_append, hone]
      simp
  simpa [numbered] using h []

theorem mem_numbered {es : List Entry} {c : Chunk} (h : c ∈ numbered es) :
    ∃ e ∈ es, ∃ t ∈ e.texts, ∃ i, c = e.chunk i t := by
  have hmem : ∀ (es : List Entry) (chunks : List Chunk), c ∈ es.foldl Entry.append chunks →
      c ∈ chunks ∨ ∃ e ∈ es, ∃ t ∈ e.texts, ∃ i, c = e.chunk i t := by
    intro es
    induction es with
    | nil => exact fun _ h => .inl h
    | cons e es ih =>
      intro chunks h
      rcases ih _ h with h | ⟨e', he', hrest⟩
      · rw [append_eq, List.mem_append] at h
        rcases h with h | h
        · exact .inl h
        · obtain ⟨i, hi, rfl⟩ := List.mem_mapIdx.mp h
          exact .inr ⟨e, by simp, _, List.getElem_mem hi, _, rfl⟩
      · exact .inr ⟨e', by simp [he'], hrest⟩
  rcases hmem es [] h with h | h
  · cases h
  · exact h

theorem numbered_mem {es : List Entry} {e : Entry} {t : Text} (he : e ∈ es) (ht : t ∈ e.texts) :
    ∃ i, e.chunk i t ∈ numbered es := by
  have hkeep : ∀ (es : List Entry) (chunks : List Chunk) c, c ∈ chunks →
      c ∈ es.foldl Entry.append chunks := by
    intro es
    induction es with
    | nil => exact fun _ _ h => h
    | cons e es ih =>
      intro chunks c h
      apply ih
      rw [append_eq]
      exact List.mem_append_left _ h
  have hmem : ∀ chunks : List Chunk, ∃ i, e.chunk i t ∈ es.foldl Entry.append chunks := by
    induction es with
    | nil => cases he
    | cons e' es ih =>
      intro chunks
      rcases List.mem_cons.mp he with rfl | he
      · obtain ⟨i, hi, rfl⟩ := List.getElem_of_mem ht
        refine ⟨chunks.length + i, hkeep es (e.append chunks) _ ?_⟩
        rw [append_eq]
        exact List.mem_append_right _ (List.mem_mapIdx.mpr ⟨i, hi, rfl⟩)
      · exact ih he _
  exact hmem []

end Numbered

namespace Chunker

variable (u : Tables) (b : SizeBudget)

section Entries

variable (place : Nat) (unit : NormalizedUnit) (headings : List Heading)

def tableEntry (heading : Option Text) (t : ExtractedTable) : Entry :=
  { origin := .table t, texts := renderTable u b t, page := unit.index, heading }

def figureEntry (heading : Option Text) (f : ExtractedFigure) : Entry :=
  { origin := .figure f, texts := splitToSize u b (figureBody f), page := unit.index, heading }

def sectionEntry (heading : Option Text) (sec : Section) : Entry :=
  { origin := .section place sec.begins, texts := splitToSize u b sec.body, page := unit.index,
    heading }

/-- What follows the sections. -/
def pendingEntries (current : Option Text) (ts : List ExtractedTable)
    (fs : List ExtractedFigure) : List Entry :=
  let fallback := if 1 < headings.length then none else current
  ts.map (fun t => tableEntry u b unit ((truthy t.heading).orElse fun _ => fallback) t) ++
    fs.map fun f => figureEntry u b unit ((truthy f.heading).orElse fun _ => fallback) f

/-- The heading alone, with its own table or figure still to come. -/
def TitleAlone (ts : List ExtractedTable) (fs : List ExtractedFigure) (sec : Section) : Prop :=
  ∃ heading, sec.heading = some heading ∧ words u sec.body = words u heading ∧
    ((∃ t ∈ ts, t.heading = some heading) ∨ ∃ f ∈ fs, f.heading = some heading)

instance (ts : List ExtractedTable) (fs : List ExtractedFigure) (sec : Section) :
    Decidable (TitleAlone u ts fs sec) :=
  match h : sec.heading with
  | none => isFalse fun ⟨_, hs, _⟩ => by rw [h] at hs; cases hs
  | some heading => decidable_of_iff (words u sec.body = words u heading ∧
      ((∃ t ∈ ts, t.heading = some heading) ∨ ∃ f ∈ fs, f.heading = some heading))
      ⟨fun hw => ⟨heading, h, hw⟩, fun ⟨_, hs, hw⟩ => by rw [h] at hs; cases hs; exact hw⟩

/-- What the sections leave pending: what sits under none of their headings. -/
def leftTables (ts : List ExtractedTable) (sec : Section) : List ExtractedTable :=
  ts.filter fun t => sec.heading = none ∨ t.heading ≠ sec.heading

def leftFigures (fs : List ExtractedFigure) (sec : Section) : List ExtractedFigure :=
  fs.filter fun f => sec.heading = none ∨ f.heading ≠ sec.heading

def attachedEntries (ts : List ExtractedTable) (fs : List ExtractedFigure) (sec : Section) :
    List Entry :=
  match sec.heading with
  | none => []
  | some heading =>
    (ts.filter (·.heading = some heading)).map (tableEntry u b unit (some heading)) ++
      (fs.filter (·.heading = some heading)).map (figureEntry u b unit (some heading))

def headingAfter (current : Option Text) (sec : Section) : Option Text :=
  sec.heading.orElse fun _ => current

/-- The entries of a unit from the sections that remain. -/
def sectionEntries : Option Text → List ExtractedTable → List ExtractedFigure → List Section →
    List Entry
  | current, ts, fs, [] => pendingEntries u b unit headings current ts fs
  | current, ts, fs, sec :: secs =>
    (if TitleAlone u ts fs sec then []
      else [sectionEntry u b place unit (headingAfter current sec) sec]) ++
    (attachedEntries u b unit ts fs sec ++
      sectionEntries (headingAfter current sec) (leftTables ts sec) (leftFigures fs sec) secs)

/-- The sections but those that are a heading alone whose own table or figure is pending. -/
def keptSections : List ExtractedTable → List ExtractedFigure → List Section → List Section
  | _, _, [] => []
  | ts, fs, sec :: secs =>
    (if TitleAlone u ts fs sec then [] else [sec]) ++
      keptSections (leftTables ts sec) (leftFigures fs sec) secs

end Entries

section Members

variable {u b} {place : Nat} {unit : NormalizedUnit} {headings : List Heading}

/-- An entry of a unit is a kept section, a table or a figure of it. -/
theorem mem_sectionEntries {secs : List Section} {current : Option Text} {ts : List ExtractedTable}
    {fs : List ExtractedFigure} {e : Entry}
    (he : e ∈ sectionEntries u b place unit headings current ts fs secs) :
    (∃ sec ∈ keptSections u ts fs secs, ∃ before,
      e = sectionEntry u b place unit (headingAfter before sec) sec) ∨
    (∃ t ∈ ts, ∃ heading, e = tableEntry u b unit heading t) ∨
    ∃ f ∈ fs, ∃ heading, e = figureEntry u b unit heading f := by
  induction secs generalizing current ts fs with
  | nil =>
    rcases List.mem_append.mp he with he | he
    · obtain ⟨t, ht, rfl⟩ := List.mem_map.mp he
      exact .inr (.inl ⟨t, ht, _, rfl⟩)
    · obtain ⟨f, hf, rfl⟩ := List.mem_map.mp he
      exact .inr (.inr ⟨f, hf, _, rfl⟩)
  | cons sec secs ih =>
    rw [sectionEntries, List.mem_append, List.mem_append] at he
    rw [keptSections]
    rcases he with he | he | he
    · split at he
      · cases he
      · rename_i hkept
        exact .inl ⟨sec, by simp [hkept], _, List.mem_singleton.mp he⟩
    · unfold attachedEntries at he
      split at he
      · cases he
      · rcases List.mem_append.mp he with he | he
        · obtain ⟨t, ht, rfl⟩ := List.mem_map.mp he
          exact .inr (.inl ⟨t, (List.mem_filter.mp ht).1, _, rfl⟩)
        · obtain ⟨f, hf, rfl⟩ := List.mem_map.mp he
          exact .inr (.inr ⟨f, (List.mem_filter.mp hf).1, _, rfl⟩)
    · rcases ih he with ⟨sec', hsec, h⟩ | ⟨t, ht, h⟩ | ⟨f, hf, h⟩
      · exact .inl ⟨sec', List.mem_append_right _ hsec, h⟩
      · exact .inr (.inl ⟨t, (List.mem_filter.mp ht).1, h⟩)
      · exact .inr (.inr ⟨f, (List.mem_filter.mp hf).1, h⟩)

theorem section_entry {secs : List Section} {sec : Section} (current : Option Text)
    {ts : List ExtractedTable} {fs : List ExtractedFigure} (h : sec ∈ keptSections u ts fs secs) :
    ∃ before, sectionEntry u b place unit (headingAfter before sec) sec ∈
      sectionEntries u b place unit headings current ts fs secs := by
  induction secs generalizing current ts fs with
  | nil => cases h
  | cons sec' secs ih =>
    simp only [keptSections, sectionEntries, List.mem_append] at h ⊢
    rcases h with h | h
    · split at h
      · cases h
      · rename_i hkept
        rw [List.mem_singleton.mp h, if_neg hkept]
        exact ⟨_, .inl (List.mem_singleton.mpr rfl)⟩
    · obtain ⟨before, he⟩ := ih _ h
      exact ⟨before, .inr (.inr he)⟩

theorem figure_entry {f : ExtractedFigure} (secs : List Section) (current : Option Text)
    (ts : List ExtractedTable) {fs : List ExtractedFigure} (h : f ∈ fs) :
    ∃ heading, figureEntry u b unit heading f ∈
      sectionEntries u b place unit headings current ts fs secs := by
  induction secs generalizing current ts fs with
  | nil => exact ⟨_, List.mem_append_right _ (List.mem_map_of_mem h)⟩
  | cons sec secs ih =>
    by_cases hleft : sec.heading = none ∨ f.heading ≠ sec.heading
    · have hf : f ∈ leftFigures fs sec := List.mem_filter.mpr ⟨h, by simpa using hleft⟩
      obtain ⟨heading, he⟩ := ih (headingAfter current sec) (leftTables ts sec) hf
      exact ⟨heading, List.mem_append_right _ (List.mem_append_right _ he)⟩
    · push Not at hleft
      obtain ⟨hsome, heq⟩ := hleft
      obtain ⟨heading, hheading⟩ := Option.ne_none_iff_exists'.mp hsome
      refine ⟨some heading, List.mem_append_right _ (List.mem_append_left _ ?_)⟩
      simp only [attachedEntries, hheading]
      exact List.mem_append_right _ (List.mem_map_of_mem (List.mem_filter.mpr
        ⟨h, by simp [heq, hheading]⟩))

end Members

section Loops

variable {place : Nat} {unit : NormalizedUnit} {headings : List Heading}

theorem foldl_erase_filter {α : Type*} [DecidableEq α] (p : α → Bool) (l : List α) :
    (l.filter p).foldl List.erase l = l.filter fun a => !p a := by
  have hskip : ∀ (a : α) (xs l : List α), (∀ x ∈ xs, x ≠ a) →
      xs.foldl List.erase (a :: l) = a :: xs.foldl List.erase l := by
    intro a xs
    induction xs with
    | nil => exact fun _ _ => rfl
    | cons x xs ih =>
      intro l h
      have hx : a ≠ x := (h x (by simp)).symm
      rw [List.foldl_cons, List.erase_cons_tail (by simpa using hx),
        ih _ (fun y hy => h y (by simp [hy])), List.foldl_cons]
  induction l with
  | nil => rfl
  | cons a l ih =>
    by_cases hp : p a = true
    · simp [hp, ih]
    · have hne : ∀ x ∈ l.filter p, x ≠ a := by
        rintro x hx rfl
        exact hp (List.mem_filter.mp hx).2
      simp only [Bool.not_eq_true] at hp
      simp only [List.filter_cons, hp, Bool.false_eq_true, if_false, Bool.not_false, if_true]
      rw [hskip a _ _ hne, ih]

theorem titleOnly_iff (st : UnitState) (sec : Section) :
    titleOnly u st sec = true ↔ TitleAlone u st.pending st.pendingFigures sec := by
  unfold titleOnly TitleAlone
  cases sec.heading <;> simp

theorem addSection_eq (st : UnitState) (sec : Section) :
    addSection u b place unit st sec =
      { currentHeading := headingAfter st.currentHeading sec
        pending := leftTables st.pending sec
        pendingFigures := leftFigures st.pendingFigures sec
        chunks := ((if TitleAlone u st.pending st.pendingFigures sec then []
          else [sectionEntry u b place unit (headingAfter st.currentHeading sec) sec]) ++
          attachedEntries u b unit st.pending st.pendingFigures sec).foldl Entry.append st.chunks } := by
  have hpieces : appendChunks st.chunks (if titleOnly u st sec then [] else splitToSize u b sec.body)
      unit.index (headingAfter st.currentHeading sec) false (.section place sec.begins) =
      (if TitleAlone u st.pending st.pendingFigures sec then []
        else [sectionEntry u b place unit (headingAfter st.currentHeading sec) sec]).foldl
          Entry.append st.chunks := by
    by_cases h : TitleAlone u st.pending st.pendingFigures sec
    · rw [if_pos ((titleOnly_iff u st sec).mpr h), if_pos h]
      rfl
    · rw [if_neg (fun ht => h ((titleOnly_iff u st sec).mp ht)), if_neg h]
      rfl
  rw [List.foldl_append, ← hpieces]
  unfold addSection
  cases hs : sec.heading with
  | none => simp [headingAfter, leftTables, leftFigures, attachedEntries, hs]
  | some heading =>
    simp only [addAttached, attachedEntries, hs, List.foldl_append, List.foldl_map,
      foldl_erase_filter, leftTables, leftFigures, headingAfter, reduceCtorEq, false_or]
    simp only [← decide_not]
    rfl

theorem addPending_chunks (st : UnitState) :
    (addPending u b unit headings st).chunks =
      (pendingEntries u b unit headings st.currentHeading st.pending st.pendingFigures).foldl
        Entry.append st.chunks := by
  simp only [addPending, pendingEntries, List.foldl_append, List.foldl_map]
  rfl

theorem sections_chunks (secs : List Section) (st : UnitState) :
    (addPending u b unit headings (secs.foldl (addSection u b place unit) st)).chunks =
      (sectionEntries u b place unit headings st.currentHeading st.pending st.pendingFigures
        secs).foldl Entry.append st.chunks := by
  induction secs generalizing st with
  | nil => exact addPending_chunks u b st
  | cons sec secs ih =>
    rw [List.foldl_cons, ih, addSection_eq, sectionEntries, ← List.append_assoc]
    exact List.foldl_append.symm

theorem sections_heading (secs : List Section) (st : UnitState) :
    (addPending u b unit headings (secs.foldl (addSection u b place unit) st)).currentHeading =
      secs.foldl headingAfter st.currentHeading := by
  have h : (secs.foldl (addSection u b place unit) st).currentHeading =
      secs.foldl headingAfter st.currentHeading := by
    induction secs generalizing st with
    | nil => rfl
    | cons sec secs ih => rw [List.foldl_cons, ih, addSection_eq, List.foldl_cons]
  exact h

end Loops

section Document

variable (result : NormalizationResult)

/-- The heading in force where a unit begins. -/
def carriedOver (current : Option Text) : Option Text :=
  if unitsStandAlone result then none else current

def unitEntries (current : Option Text) (unit : NormalizedUnit × Nat) : List Entry :=
  sectionEntries u b unit.2 unit.1 (headingsOf result unit.1) (carriedOver result current)
    (tablesOf result unit.1) (figuresOf result unit.1) (sectionsOf u result unit.1)

def headingAfterUnit (current : Option Text) (unit : NormalizedUnit × Nat) : Option Text :=
  (sectionsOf u result unit.1).foldl headingAfter (carriedOver result current)

def entriesFrom : Option Text → List (NormalizedUnit × Nat) → List Entry
  | _, [] => []
  | current, unit :: units =>
    unitEntries u b result current unit ++ entriesFrom (headingAfterUnit u result current unit) units

theorem addUnit_eq (st : Option Text × List Chunk) (unit : NormalizedUnit × Nat) :
    addUnit u b result st unit = (headingAfterUnit u result st.1 unit,
      (unitEntries u b result st.1 unit).foldl Entry.append st.2) := by
  simp only [addUnit]
  rw [sections_chunks, sections_heading]
  rfl

def entries : List Entry := entriesFrom u b result none result.units.zipIdx

/-- The loops number the texts of the entries. -/
theorem chunk_eq : chunk u b result = numbered (entries u b result) := by
  have h : ∀ (units : List (NormalizedUnit × Nat)) (st : Option Text × List Chunk),
      (units.foldl (addUnit u b result) st).2 =
        (entriesFrom u b result st.1 units).foldl Entry.append st.2 := by
    intro units
    induction units with
    | nil => exact fun _ => rfl
    | cons unit units ih =>
      intro st
      rw [List.foldl_cons, ih, addUnit_eq, entriesFrom, List.foldl_append]
  exact h _ _

variable {u b result}

theorem mem_entriesFrom {current : Option Text} {units : List (NormalizedUnit × Nat)} {e : Entry} :
    e ∈ entriesFrom u b result current units ↔ ∃ before p after, units = before ++ p :: after ∧
      e ∈ unitEntries u b result (before.foldl (headingAfterUnit u result) current) p := by
  induction units generalizing current with
  | nil => simp [entriesFrom]
  | cons p units ih =>
    rw [entriesFrom, List.mem_append, ih]
    constructor
    · rintro (he | ⟨before, q, after, rfl, he⟩)
      · exact ⟨[], p, units, rfl, he⟩
      · exact ⟨p :: before, q, after, rfl, he⟩
    · rintro ⟨before, q, after, hsplit, he⟩
      cases before with
      | nil =>
        obtain ⟨rfl, rfl⟩ := List.cons.inj hsplit
        exact .inl he
      | cons p' before =>
        obtain ⟨rfl, rfl⟩ := List.cons.inj hsplit
        exact .inr ⟨before, q, after, rfl, he⟩

/-- The heading in force before the unit at a place. -/
def headingBefore (u : Tables) (result : NormalizationResult) (place : Nat) : Option Text :=
  (result.units.zipIdx.take place).foldl (headingAfterUnit u result) none

theorem mem_entries {e : Entry} : e ∈ entries u b result ↔ ∃ place unit,
    result.units[place]? = some unit ∧
      e ∈ unitEntries u b result (headingBefore u result place) (unit, place) := by
  rw [entries, mem_entriesFrom]
  constructor
  · rintro ⟨before, ⟨unit, place⟩, after, hsplit, he⟩
    have hget : result.units.zipIdx[before.length]? = some (unit, place) := by
      rw [hsplit, List.getElem?_append_right (Nat.le_refl _)]
      simp
    rw [List.getElem?_zipIdx] at hget
    obtain ⟨unit', hunit, heq⟩ := Option.map_eq_some_iff.mp hget
    obtain ⟨rfl, rfl⟩ := Prod.mk.inj heq
    rw [Nat.zero_add] at he
    refine ⟨before.length, unit', hunit, ?_⟩
    rwa [headingBefore, hsplit, List.take_left]
  · rintro ⟨place, unit, hunit, he⟩
    have hget : result.units.zipIdx[place]? = some (unit, place) := by
      rw [List.getElem?_zipIdx, hunit]
      simp
    obtain ⟨hlt, hval⟩ := List.getElem?_eq_some_iff.mp hget
    refine ⟨result.units.zipIdx.take place, (unit, place), result.units.zipIdx.drop (place + 1), ?_, he⟩
    rw [← hval, List.getElem_cons_drop, List.take_append_drop]

/-- The sections of a unit that are made into chunks. -/
def proseSections (u : Tables) (result : NormalizationResult) (unit : NormalizedUnit) :
    List Section :=
  keptSections u (tablesOf result unit) (figuresOf result unit) (sectionsOf u result unit)

/-- A chunk is cut from a section that is kept, a table or a figure of some unit. -/
theorem mem_chunk {c : Chunk} (hc : c ∈ chunk u b result) :
    ∃ place unit, result.units[place]? = some unit ∧
      ((∃ sec ∈ proseSections u result unit, c.origin = .section place sec.begins ∧
          c.text ∈ splitToSize u b sec.body) ∨
        (∃ t ∈ tablesOf result unit, c.origin = .table t ∧ c.text ∈ renderTable u b t) ∨
        ∃ f ∈ figuresOf result unit, c.origin = .figure f ∧
          c.text ∈ splitToSize u b (figureBody f)) := by
  rw [chunk_eq] at hc
  obtain ⟨e, he, t, ht, i, rfl⟩ := mem_numbered hc
  obtain ⟨place, unit, hunit, he⟩ := mem_entries.mp he
  refine ⟨place, unit, hunit, ?_⟩
  rcases mem_sectionEntries he with ⟨sec, hsec, h, rfl⟩ | ⟨table, htable, h, rfl⟩ | ⟨f, hf, h, rfl⟩
  · exact .inl ⟨sec, hsec, rfl, ht⟩
  · exact .inr (.inl ⟨table, htable, rfl, ht⟩)
  · exact .inr (.inr ⟨f, hf, rfl, ht⟩)

theorem chunk_isTable {c : Chunk} (hc : c ∈ chunk u b result) : c.isTable = c.origin.isTable := by
  rw [chunk_eq] at hc
  obtain ⟨e, -, t, -, i, rfl⟩ := mem_numbered hc
  rfl

theorem chunk_of_entry {place : Nat} {unit : NormalizedUnit} {e : Entry} {t : Text}
    (hunit : result.units[place]? = some unit)
    (he : e ∈ unitEntries u b result (headingBefore u result place) (unit, place))
    (ht : t ∈ e.texts) : ∃ i, e.chunk i t ∈ chunk u b result := by
  rw [chunk_eq]
  exact numbered_mem (mem_entries.mpr ⟨place, unit, hunit, he⟩) ht

/-- Each kept section is made into chunks, and so is each figure. -/
theorem chunk_of_section {place : Nat} {unit : NormalizedUnit} {sec : Section} {t : Text}
    (hunit : result.units[place]? = some unit) (hsec : sec ∈ proseSections u result unit)
    (ht : t ∈ splitToSize u b sec.body) :
    ∃ c ∈ chunk u b result, c.origin = .section place sec.begins ∧ c.text = t ∧
      c.isTable = false := by
  obtain ⟨before, he⟩ := section_entry _ hsec
  obtain ⟨i, hi⟩ := chunk_of_entry hunit he ht
  exact ⟨_, hi, rfl, rfl, rfl⟩

theorem chunk_of_figure {place : Nat} {unit : NormalizedUnit} {f : ExtractedFigure} {t : Text}
    (hunit : result.units[place]? = some unit) (hf : f ∈ figuresOf result unit)
    (ht : t ∈ splitToSize u b (figureBody f)) :
    ∃ c ∈ chunk u b result, c.origin = .figure f ∧ c.text = t ∧ c.isTable = false := by
  obtain ⟨heading, he⟩ := figure_entry _ _ _ hf
  obtain ⟨i, hi⟩ := chunk_of_entry hunit he ht
  exact ⟨_, hi, rfl, rfl, rfl⟩

end Document

end Chunker

end KnowledgeBase.Artifact
