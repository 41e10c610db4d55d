import KnowledgeBase.Splitting

/-! No prose is lost: the sections of a unit are its text cut up, and but for titles whose table
or figure follows, each section is made into chunks. -/

namespace KnowledgeBase.Artifact

variable (u : Tables) (b : SizeBudget)

/-- The place of the unit a section's chunk comes from. -/
def Origin.place : Origin → Option Nat
  | .section place _ => some place
  | _ => none

namespace Chunker

/-- Each needle stands at its cut, after the one before it. -/
def CutsFrom (text : Text) : Nat → List (Nat × Heading) → Prop
  | _, [] => True
  | start, (pos, heading) :: rest =>
    start ≤ pos ∧ trim u heading.text ≠ [] ∧ trim u heading.text <+: text.drop pos ∧
      CutsFrom text (pos + (trim u heading.text).length) rest

section Cuts

variable {u} {text needle : Text} {start pos : Nat}

theorem findFrom_some (h : findFrom needle text start = some pos) :
    start ≤ pos ∧ needle <+: text.drop pos ∧
      ∀ i, start ≤ i → i < pos → ¬ needle <+: text.drop i := by
  obtain ⟨hp, xs, ys, hsplit, hxs⟩ := List.find?_eq_some_iff_append.mp h
  have hpos : pos ∈ List.range' start (text.length + 1 - start) := by simp [hsplit]
  obtain ⟨hlo, -⟩ := List.mem_range'_1.mp hpos
  refine ⟨hlo, List.isPrefixOf_iff_prefix.mp hp, fun i hi hlt hpre => ?_⟩
  have hi' : i ∈ xs := by
    have hmem : i ∈ List.range' start (text.length + 1 - start) := by
      rw [List.mem_range'_1] at hpos ⊢
      omega
    rw [hsplit, List.mem_append, List.mem_cons] at hmem
    rcases hmem with hmem | hmem | hmem
    · exact hmem
    · omega
    · have hsorted : (List.range' start (text.length + 1 - start)).Pairwise (· < ·) :=
        List.pairwise_lt_range'
      rw [hsplit, List.pairwise_append, List.pairwise_cons] at hsorted
      have := hsorted.2.1.1 i hmem
      omega
  have := hxs i hi'
  rw [← List.isPrefixOf_iff_prefix] at hpre
  simp [hpre] at this

theorem cuts_from (headings : List Heading) (start : Nat) :
    CutsFrom u text start (cuts u text start headings) := by
  induction headings generalizing start with
  | nil => trivial
  | cons heading headings ih =>
    simp only [cuts]
    split
    · exact ih start
    · rename_i hne
      split
      · exact ih start
      · rename_i pos hfind
        obtain ⟨hlo, hpre, -⟩ := findFrom_some hfind
        exact ⟨hlo, hne, hpre, ih _⟩

theorem drop_eq_slice_append {p q : Nat} (h : p ≤ q) :
    text.drop p = slice text p q ++ text.drop q := by
  rw [slice]
  conv_lhs => rw [← List.take_append_drop q text, List.drop_append]
  rw [List.length_take]
  by_cases hlen : q ≤ text.length
  · rw [Nat.min_eq_left hlen, Nat.sub_eq_zero_of_le h, List.drop_zero]
  · simp [List.drop_eq_nil_of_le (Nat.le_of_not_le hlen)]

theorem cutSections_letters {lead : Nat} {heading : Heading} {rest : List (Nat × Heading)}
    (h : CutsFrom u text start ((pos, heading) :: rest)) :
    (cutSections u text lead ((pos, heading) :: rest)).flatMap (letters u ·.body) =
      letters u (text.drop pos) := by
  induction rest generalizing start pos heading with
  | nil =>
    simp only [cutSections, slice, List.take_length, List.append_nil]
    split
    · rename_i hb
      rw [List.flatMap_nil, trim_eq_nil_iff.mp hb]
    · simp
  | cons next rest ih =>
    obtain ⟨-, -, -, hrest⟩ := h
    have hle : pos ≤ next.1 := (Nat.le_add_right _ _).trans hrest.1
    rw [cutSections, List.flatMap_append, ih hrest, drop_eq_slice_append hle, letters_append]
    congr 1
    split
    · rename_i hb
      rw [List.flatMap_nil, ← letters_trim, hb, letters_nil]
    · simp

end Cuts

section Sections

variable {u} (unit : NormalizedUnit) (headings : List Heading)

theorem splitUnitByHeadings_letters :
    (splitUnitByHeadings u unit headings).flatMap (letters u ·.body) = letters u unit.text := by
  simp only [splitUnitByHeadings]
  split
  · rename_i hblank
    rw [List.flatMap_nil, trim_eq_nil_iff.mp hblank]
  · have hfrom : CutsFrom u (trim u unit.text) 0 (cuts u (trim u unit.text) 0 headings) :=
      cuts_from headings 0
    split
    · simp
    · rename_i pos heading rest hcuts
      rw [hcuts] at hfrom
      rw [List.flatMap_append, cutSections_letters hfrom, ← letters_trim unit.text]
      conv_rhs => rw [← List.take_append_drop pos (trim u unit.text), letters_append]
      congr 1
      split
      · rename_i hlead
        rcases hlead with rfl | hlead
        · simp
        · rw [List.flatMap_nil, ← letters_trim, hlead, letters_nil]
      · simp

end Sections

def proseOf (place : Nat) (es : List Entry) : List Text :=
  es.flatMap fun e => if e.origin.place = some place then e.texts else []

section Prose

variable {u b} {unit : NormalizedUnit} {headings : List Heading}

theorem proseOf_append (place : Nat) (es fs : List Entry) :
    proseOf place (es ++ fs) = proseOf place es ++ proseOf place fs := List.flatMap_append

theorem proseOf_eq_nil {place : Nat} {es : List Entry} (h : ∀ e ∈ es, e.origin.place ≠ some place) :
    proseOf place es = [] := by
  rw [proseOf, List.flatMap_eq_nil_iff]
  exact fun e he => if_neg (h e he)

theorem place_of_mem {place : Nat} {current : Option Text} {ts : List ExtractedTable}
    {fs : List ExtractedFigure} {secs : List Section} {e : Entry}
    (he : e ∈ sectionEntries u b place unit headings current ts fs secs) :
    e.origin.place = none ∨ e.origin.place = some place := by
  rcases mem_sectionEntries he with ⟨_, _, _, rfl⟩ | ⟨_, _, _, rfl⟩ | ⟨_, _, _, rfl⟩
  · exact .inr rfl
  · exact .inl rfl
  · exact .inl rfl

theorem attachedEntries_prose (place : Nat) (ts : List ExtractedTable) (fs : List ExtractedFigure)
    (sec : Section) : proseOf place (attachedEntries u b unit ts fs sec) = [] := by
  apply proseOf_eq_nil
  intro e he
  unfold attachedEntries at he
  split at he
  · cases he
  · rcases List.mem_append.mp he with he | he <;> obtain ⟨_, -, rfl⟩ := List.mem_map.mp he <;>
      exact Option.some_ne_none _ ∘ Eq.symm

theorem pendingEntries_prose (place : Nat) (current : Option Text) (ts : List ExtractedTable)
    (fs : List ExtractedFigure) :
    proseOf place (pendingEntries u b unit headings current ts fs) = [] := by
  apply proseOf_eq_nil
  intro e he
  rcases List.mem_append.mp he with he | he <;> obtain ⟨_, -, rfl⟩ := List.mem_map.mp he <;>
    exact Option.some_ne_none _ ∘ Eq.symm

theorem sectionEntries_prose (place : Nat) (secs : List Section) (current : Option Text)
    (ts : List ExtractedTable) (fs : List ExtractedFigure) :
    proseOf place (sectionEntries u b place unit headings current ts fs secs) =
      (keptSections u ts fs secs).flatMap (splitToSize u b ·.body) := by
  induction secs generalizing current ts fs with
  | nil => exact pendingEntries_prose _ _ _ _
  | cons sec secs ih =>
    rw [sectionEntries, proseOf_append, proseOf_append, ih, keptSections, List.flatMap_append,
      attachedEntries_prose, List.nil_append]
    congr 1
    split <;> simp [proseOf, sectionEntry, Origin.place]

variable {result : NormalizationResult} {place : Nat}

theorem entriesFrom_place (current : Option Text) {units : List (NormalizedUnit × Nat)}
    (h : place ∉ units.map Prod.snd) :
    proseOf place (entriesFrom u b result current units) = [] := by
  induction units generalizing current with
  | nil => rfl
  | cons p units ih =>
    rw [List.map_cons, List.mem_cons, not_or] at h
    rw [entriesFrom, proseOf_append, ih _ h.2, List.append_nil]
    apply proseOf_eq_nil
    intro e he
    rcases place_of_mem he with hp | hp <;> rw [hp]
    · exact Option.some_ne_none _ ∘ Eq.symm
    · exact fun heq => h.1 (Option.some.inj heq).symm

theorem entriesFrom_prose (current : Option Text) {units : List (NormalizedUnit × Nat)}
    (hnd : (units.map Prod.snd).Nodup) (h : (unit, place) ∈ units) :
    proseOf place (entriesFrom u b result current units) =
      (proseSections u result unit).flatMap (splitToSize u b ·.body) := by
  induction units generalizing current with
  | nil => cases h
  | cons p units ih =>
    rw [List.map_cons, List.nodup_cons] at hnd
    rw [entriesFrom, proseOf_append]
    rcases List.mem_cons.mp h with rfl | h
    · rw [entriesFrom_place _ hnd.1, List.append_nil]
      exact sectionEntries_prose _ _ _ _ _
    · have hp : p.2 ≠ place := fun heq => hnd.1 (heq ▸ List.mem_map_of_mem h)
      rw [ih _ hnd.2 h, proseOf_eq_nil, List.nil_append]
      intro e he
      rcases place_of_mem he with hpl | hpl <;> rw [hpl]
      · exact Option.some_ne_none _ ∘ Eq.symm
      · exact fun heq => hp (Option.some.inj heq)

theorem entries_prose (h : result.units[place]? = some unit) :
    proseOf place (entries u b result) =
      (proseSections u result unit).flatMap (splitToSize u b ·.body) := by
  apply entriesFrom_prose none _ (List.mem_zipIdx_iff_getElem?.mpr h)
  rw [List.zipIdx_map_snd]
  exact List.nodup_range'

end Prose

/-- The chunks made from the sections of the unit at a place. -/
def proseChunks (place : Nat) (chunks : List Chunk) : List Chunk :=
  chunks.filter fun c => c.origin.place = some place

theorem numbered_prose (place : Nat) (es : List Entry) :
    (proseChunks place (numbered es)).map (·.text) = proseOf place es := by
  have h := numbered_filterMap (f := fun c : Chunk =>
    if c.origin.place = some place then some c.text else none) es (fun _ _ _ => rfl)
  have hl : (proseChunks place (numbered es)).map (·.text) = (numbered es).filterMap fun c : Chunk =>
      if c.origin.place = some place then some c.text else none := by
    rw [proseChunks, ← List.filterMap_eq_map, ← List.filterMap_eq_filter, List.filterMap_filterMap]
    congr 1
    funext c
    by_cases hc : c.origin.place = some place <;> simp [hc, Option.guard]
  rw [hl, h, proseOf]
  congr 1
  funext e
  by_cases he : e.origin.place = some place <;> simp [Entry.chunk, he]

variable (result : NormalizationResult)

/-- The letters of a unit's text are those of its sections, its prose chunks keep the letters of
the kept sections in order, none is blank, and the chunks are numbered from 0 on. -/
theorem chunking_keeps_prose :
    (chunk u b result).map (·.index) = List.range (chunk u b result).length ∧
    (∀ place, ∀ c ∈ proseChunks place (chunk u b result), letters u c.text ≠ []) ∧
    ∀ place unit, result.units[place]? = some unit → unit.textIsTable = false →
      letters u unit.text = (sectionsOf u result unit).flatMap (letters u ·.body) ∧
      (proseChunks place (chunk u b result)).flatMap (letters u ·.text) =
        (proseSections u result unit).flatMap (letters u ·.body) := by
  refine ⟨?_, ?_, ?_⟩
  · rw [chunk_eq]
    exact numbered_index _
  · intro place c hc
    obtain ⟨hmem, hplace⟩ := List.mem_filter.mp hc
    obtain ⟨_, _, -, ⟨sec, -, -, ht⟩ | ⟨t, -, ho, -⟩ | ⟨f, -, ho, -⟩⟩ := mem_chunk hmem
    · exact splitToSize_ne_blank _ ht
    · simp [ho, Origin.place] at hplace
    · simp [ho, Origin.place] at hplace
  · intro place unit hunit htext
    rw [chunk_eq]
    constructor
    · rw [sectionsOf, htext]
      exact (splitUnitByHeadings_letters unit _).symm
    · have htexts : (proseChunks place (numbered (entries u b result))).flatMap (letters u ·.text) =
          ((proseChunks place (numbered (entries u b result))).map (·.text)).flatMap (letters u) := by
        rw [List.flatMap_map]
      rw [htexts, numbered_prose, entries_prose hunit, List.flatMap_assoc]
      simp only [splitToSize_letters]

end Chunker

end KnowledgeBase.Artifact
