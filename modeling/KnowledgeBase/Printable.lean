import KnowledgeBase.Cleaning
import KnowledgeBase.ReadableContent
import KnowledgeBase.SectionCitations
import KnowledgeBase.TableRows

/-! Which characters reach a stored passage. Cleaning lets no control character through, and what
the chunker cuts or joins adds none; the cells of a table are not cleaned. -/

namespace KnowledgeBase.Artifact

/-- No C0 control but the tab and the newline. -/
def printable (c : Char) : Bool := 0x20 ≤ c.toNat || c = '\t' || c = '\n'

def Printable (text : Text) : Prop := ∀ c ∈ text, printable c = true

section Characters

variable {u : Tables} {text text' : Text}

theorem Printable.of_subset (h : Printable text) (hs : text' ⊆ text) : Printable text' :=
  fun c hc => h c (hs hc)

theorem Printable.append (h : Printable text) (h' : Printable text') : Printable (text ++ text') :=
  fun c hc => (List.mem_append.mp hc).elim (h c) (h' c)

theorem Printable.join {sep : String} {parts : List Text} (hsep : Printable sep.toList)
    (h : ∀ p ∈ parts, Printable p) : Printable (join sep parts) := by
  intro c hc
  rcases mem_join hc with hc | ⟨p, hp, hc⟩
  · exact hsep c hc
  · exact h p hp c hc

theorem trim_subset (text : Text) : trim u text ⊆ text := by
  intro c hc
  have h1 := List.mem_reverse.mp hc
  have h2 := List.mem_reverse.mp ((List.dropWhile_sublist _).mem h1)
  exact (List.dropWhile_sublist _).mem h2

theorem Printable.trim (h : Printable text) : Printable (trim u text) := h.of_subset (trim_subset text)

end Characters

section Cleaning

open Regex

namespace TextCleaner

variable {u : Tables} {text : Text}

theorem printable_sub {pattern : Regex Char} {replace : Text → Text} (h : Printable text)
    (hr : ∀ m, m ⊆ text → Printable (replace m)) : Printable (sub pattern replace text) := by
  intro c hc
  rcases Splice.mem_splice hc with hc | ⟨e, he, hc⟩
  · exact h c hc
  · obtain ⟨m, -, rfl⟩ := List.mem_map.mp he
    refine hr _ ?_ c hc
    exact fun d hd => List.mem_of_mem_take (List.mem_of_mem_drop hd)

/-- The newlines are all that is left of the C0 controls but the tab. -/
theorem printable_newlines (h : ∀ c ∈ text, isControl c = false) : Printable (newlines text) := by
  have hone : ∀ c, isControl c = false → c ≠ '\r' → printable c = true := by
    intro c hc hr
    simp only [isControl, printable, Bool.or_eq_false_iff, Bool.and_eq_false_iff,
      decide_eq_false_iff_not, Bool.not_eq_false', List.contains_eq_mem, decide_eq_true_eq,
      List.mem_cons, List.not_mem_nil, or_false, Bool.or_eq_true] at hc ⊢
    rcases hc.1 with hc | rfl | rfl | rfl
    · exact .inl (.inl (by omega))
    · exact .inl (.inr rfl)
    · exact .inr rfl
    · exact absurd rfl hr
  fun_induction newlines text with
  | case1 => simp [Printable]
  | case2 text ih =>
    have ht := ih (fun c hc => h c (by simp [hc]))
    intro c hc
    rcases List.mem_cons.mp hc with rfl | hc
    · decide
    · exact ht c hc
  | case3 d text _ ih =>
    have ht := ih (fun c hc => h c (by simp [hc]))
    intro c hc
    rcases List.mem_cons.mp hc with rfl | hc
    · by_cases hd : d = '\r'
      · simp [hd, printable]
      · simpa [hd] using hone d (h d (by simp)) hd
    · exact ht c hc

/-- Whatever the text, no control character is left. -/
theorem clean_printable (text : Text) : Printable (clean u text) := by
  unfold clean
  split
  · simp [Printable]
  · apply Printable.trim
    apply printable_sub _ (fun _ _ => by simp [Printable, printable])
    apply printable_sub _ (fun _ _ => by simp [Printable])
    apply printable_sub _ (fun _ _ => by simp [Printable, printable])
    -- the letters on both sides of a rejoined hyphen are the text's own
    have hlines : Printable (sub (pageFurniture u) (fun _ => []) (newlines
        (((((u.nfkc text).filter (fun c => !invisible.contains c)).map lineBreakControl)).filter
          fun c => !isControl c))) := by
      apply printable_sub _ (fun _ _ => by simp [Printable])
      apply printable_newlines
      intro c hc
      simpa using (List.mem_filter.mp hc).2
    refine printable_sub hlines (fun m hm => ?_)
    exact ((hlines.of_subset hm).of_subset (List.take_subset _ _)).append
      ((hlines.of_subset hm).of_subset (List.drop_subset _ _))

end TextCleaner

end Cleaning

namespace Chunker

open Regex

variable {u : Tables} {b : SizeBudget}

section Pieces

theorem between_subset {t : Text} {p : Nat} {ms : List (Nat × Nat)} :
    ∀ part ∈ between t p ms, part ⊆ t := by
  induction ms generalizing p with
  | nil =>
    intro part hpart
    rw [List.mem_singleton.mp hpart]
    exact List.drop_subset p t
  | cons m ms ih =>
    intro part hpart
    rcases List.mem_cons.mp hpart with rfl | hpart
    · exact fun c hc => List.mem_of_mem_drop (List.mem_of_mem_take hc)
    · exact ih part hpart

theorem boundaryParts_subset (text : Text) : ∀ part ∈ boundaryParts u text, part ⊆ text := by
  have hparts : ∀ pattern, ∀ part ∈ partsAt u pattern text, part ⊆ text := by
    intro pattern part hpart
    obtain ⟨p, hp, rfl⟩ := List.mem_map.mp (List.mem_filter.mp hpart).1
    exact List.Subset.trans (trim_subset p) (between_subset p hp)
  intro part hpart
  unfold boundaryParts at hpart
  split at hpart <;> exact hparts _ part hpart

theorem hardWrap_subset (text : Text) : ∀ piece ∈ hardWrap u b text, piece ⊆ text := by
  intro piece hpiece
  unfold hardWrap at hpiece
  split at hpiece
  · rw [List.mem_singleton.mp hpiece]
    exact fun _ hc => hc
  · obtain ⟨p, hp, rfl⟩ := List.mem_map.mp (List.mem_filter.mp hpiece).1
    obtain ⟨i, -, rfl⟩ := List.mem_map.mp hp
    exact List.Subset.trans (trim_subset _) fun c hc =>
      List.mem_of_mem_drop (List.mem_of_mem_take hc)

/-- Only blank lines are added where parts are joined. -/
theorem printable_splitToSize {text : Text} (h : Printable text) :
    ∀ piece ∈ splitToSize u b text, Printable piece := by
  revert h
  have hflush : ∀ {buffer : Text}, Printable buffer →
      ∀ piece ∈ (if buffer = [] then [] else [buffer]), Printable piece := by
    intro buffer hbuf piece hpiece
    split at hpiece
    · cases hpiece
    · rwa [List.mem_singleton.mp hpiece]
  refine splitToSize.induct u b
    (fun text => Printable text → ∀ piece ∈ splitToSize u b text, Printable piece)
    (fun parts buffer => (∀ part ∈ parts, Printable part) → Printable buffer →
      ∀ piece ∈ pack u b parts buffer, Printable piece)
    ?blank ?fits ?cut ?wrap ?nil ?last ?large ?flush ?join text
  case blank =>
    intro text hb _
    simp [splitToSize_blank hb]
  case fits =>
    intro text hb hf h
    rw [splitToSize_fits hb hf]
    simpa using h.trim
  case cut =>
    intro text hb hf hp ih h
    rw [splitToSize_pack hb hf hp]
    apply ih _ (by simp [Printable])
    exact fun part hpart => h.trim.of_subset (boundaryParts_subset _ part hpart)
  case wrap =>
    intro text hb hf hp h
    rw [splitToSize_wrap hb hf hp]
    exact fun piece hpiece => h.trim.of_subset (hardWrap_subset _ piece hpiece)
  case nil => simp [pack_nil]
  case last =>
    intro buffer hb _ hbuf
    rw [pack_nil]
    exact hflush hbuf
  case large =>
    intro buffer part parts h ihs ihp hparts hbuf piece hpiece
    rw [pack_over h, List.mem_append, List.mem_append] at hpiece
    rcases hpiece with (hpiece | hpiece) | hpiece
    · exact hflush hbuf piece hpiece
    · exact ihs (hparts part (by simp)) piece hpiece
    · exact ihp (fun q hq => hparts q (by simp [hq])) (by simp [Printable]) piece hpiece
  case flush =>
    intro buffer part parts h ht ih hparts hbuf piece hpiece
    rw [pack_flush h ht] at hpiece
    rcases List.mem_cons.mp hpiece with rfl | hpiece
    · exact hbuf
    · exact ih (fun q hq => hparts q (by simp [hq])) (hparts part (by simp)) piece hpiece
  case join =>
    intro buffer part parts h ht ih hparts hbuf
    rw [pack_join h ht]
    simp only [dite_eq_ite] at ih
    apply ih (fun q hq => hparts q (by simp [hq]))
    split
    · exact hparts part (by simp)
    · exact (hbuf.append (by simp [Printable, printable])).append (hparts part (by simp))

end Pieces

section Sections

theorem cuts_subset {text : Text} {start : Nat} {headings : List Heading} :
    ∀ c ∈ cuts u text start headings, c.2 ∈ headings := by
  induction headings generalizing start with
  | nil => simp [cuts]
  | cons heading headings ih =>
    intro c hc
    simp only [cuts] at hc
    split at hc
    · exact List.mem_cons_of_mem _ (ih c hc)
    · split at hc
      · exact List.mem_cons_of_mem _ (ih c hc)
      · rcases List.mem_cons.mp hc with rfl | hc
        · exact List.mem_cons_self
        · exact List.mem_cons_of_mem _ (ih c hc)

/-- A section is a piece of its unit under one of the unit's headings. -/
structure Section.Of (u : Tables) (text : Text) (headings : List Heading) (sec : Section) : Prop where
  body : sec.body ⊆ text
  heading : ∀ h, sec.heading = some h → ∃ heading ∈ headings, h = trim u heading.text

theorem cutSections_of {text : Text} {lead : Nat} {cs : List (Nat × Heading)}
    {headings : List Heading} (hcs : ∀ c ∈ cs, c.2 ∈ headings) :
    ∀ sec ∈ cutSections u text lead cs, Section.Of u text headings sec := by
  induction cs with
  | nil => simp [cutSections]
  | cons c cs ih =>
    intro sec hsec
    obtain ⟨pos, heading⟩ := c
    rw [cutSections_cons, List.mem_append] at hsec
    rcases hsec with hsec | hsec
    · split at hsec
      · cases hsec
      · rw [List.mem_singleton.mp hsec]
        refine ⟨fun d hd => ?_, fun h hh => ⟨heading, hcs _ (.head _), (Option.some.inj hh).symm⟩⟩
        exact List.mem_of_mem_take (List.mem_of_mem_drop (trim_subset _ hd))
    · exact ih (fun c' hc' => hcs c' (by simp [hc'])) sec hsec

theorem splitUnit_of (unit : NormalizedUnit) (headings : List Heading) :
    ∀ sec ∈ splitUnitByHeadings u unit headings, Section.Of u unit.text headings sec := by
  have htrim : ∀ sec, Section.Of u (trim u unit.text) headings sec →
      Section.Of u unit.text headings sec :=
    fun sec h => ⟨List.Subset.trans h.body (trim_subset _), h.heading⟩
  intro sec hsec
  apply htrim
  simp only [splitUnitByHeadings] at hsec
  split at hsec
  · cases hsec
  · split at hsec
    · rw [List.mem_singleton.mp hsec]
      exact ⟨fun _ hc => hc, by simp⟩
    · rename_i pos heading rest hcuts
      rcases List.mem_append.mp hsec with hsec | hsec
      · split at hsec
        · cases hsec
        · rw [List.mem_singleton.mp hsec]
          exact ⟨fun c hc => List.mem_of_mem_take (trim_subset _ hc), by simp⟩
      · exact cutSections_of (fun c hc => cuts_subset c (hcuts ▸ hc)) sec hsec

end Sections

section Rows

variable (b) (table : ExtractedTable)

theorem printable_cellText_iff (cell : Text) :
    Printable (cellText u cell) ↔ ∀ line ∈ splitlines [] cell, Printable (trim u line) := by
  constructor
  · intro h line hline c hc
    apply h
    have hmem : trim u line ∈ ((splitlines [] cell).map (trim u)).filter (· ≠ []) :=
      List.mem_filter.mpr ⟨List.mem_map_of_mem hline, by simpa using List.ne_nil_of_mem hc⟩
    exact (infix_join hmem).subset hc
  · intro h
    apply Printable.join (by simp [Printable, printable])
    intro p hp
    obtain ⟨line, hline, rfl⟩ := List.mem_map.mp (List.mem_filter.mp hp).1
    exact h line hline

theorem mem_rows {rows : List (List Text)} {row : List Text} (h : row ∈ rows) (k : Nat) :
    row ∈ rows.take k ∨ row = rows.getD k [] ∨ row ∈ rows.drop (k + 1) := by
  rw [← List.take_append_drop k rows, List.mem_append] at h
  rcases h with h | h
  · exact .inl h
  · right
    cases hdrop : rows.drop k with
    | nil => simp [hdrop] at h
    | cons r rest =>
      have hget : rows[k]? = some r := by rw [← List.head?_drop, hdrop, List.head?_cons]
      have hrest : rows.drop (k + 1) = rest := by rw [← List.drop_drop, hdrop, List.drop_one, List.tail_cons]
      rw [hdrop] at h
      rcases List.mem_cons.mp h with rfl | h
      · exact .inl (by simp [List.getD_eq_getElem?_getD, hget])
      · exact .inr (hrest ▸ h)

/-- Every cell is on a line of the header block or of the body. -/
theorem cell_line {rows : List (List Text)} {row : List Text} {cell : Text} {c : Char}
    (hrow : row ∈ rows) (hcell : cell ∈ row) (hc : c ∈ cell) :
    (∃ line ∈ headerLines rows, c ∈ line) ∨ ∃ line ∈ bodyLines rows, c ∈ line := by
  rcases mem_rows hrow (headerRow rows) with h | h | h
  · refine .inl ⟨_, List.mem_append_left _ (List.mem_map_of_mem h), ?_⟩
    exact (infix_join (List.mem_filter.mpr ⟨hcell, by simpa using List.ne_nil_of_mem hc⟩)).subset hc
  · refine .inl ⟨_, List.mem_append_right _ (List.mem_singleton_self _), ?_⟩
    exact (infix_join (h ▸ hcell)).subset hc
  · exact .inr ⟨_, List.mem_map_of_mem h, (infix_join hcell).subset hc⟩

theorem line_cell {rows : List (List Text)} (h : ∀ row ∈ rows, ∀ cell ∈ row, Printable cell) :
    ∀ line ∈ headerLines rows ++ bodyLines rows, Printable line := by
  have hrow : ∀ row ⊆ rows.getD (headerRow rows) [], ∀ p ∈ row, Printable p := by
    intro row hsub p hp
    rw [List.getD_eq_getElem?_getD] at hsub
    cases hget : rows[headerRow rows]? with
    | none => simpa [hget] using hsub hp
    | some r => exact h r (List.mem_of_getElem? hget) p (by simpa [hget] using hsub hp)
  intro line hline
  rcases List.mem_append.mp hline with hline | hline
  · rcases List.mem_append.mp hline with hline | hline
    · obtain ⟨row, hmem, rfl⟩ := List.mem_map.mp hline
      apply Printable.join (by simp [Printable, printable])
      exact fun p hp => h row (List.mem_of_mem_take hmem) p (List.mem_filter.mp hp).1
    · rw [List.mem_singleton.mp hline]
      exact Printable.join (by simp [Printable, printable]) (hrow _ fun _ hp => hp)
  · obtain ⟨row, hmem, rfl⟩ := List.mem_map.mp hline
    exact Printable.join (by simp [Printable, printable]) (h row (List.mem_of_mem_drop hmem))

/-- The rendered table holds a control character exactly where some cell does. -/
theorem printable_renderTable_iff :
    (∀ piece ∈ renderTable u b table, Printable piece) ↔
      ∀ row ∈ table.rows, ∀ cell ∈ row, Printable (cellText u cell) := by
  have hcells : (∀ row ∈ table.rows, ∀ cell ∈ row, Printable (cellText u cell)) ↔
      ∀ row ∈ cellRows u table, ∀ cell ∈ row, Printable cell := by
    constructor
    · intro h row hrow cell hcell
      obtain ⟨r, hr, rfl⟩ := List.mem_map.mp hrow
      obtain ⟨x, hx, rfl⟩ := List.mem_map.mp hcell
      exact h r (List.mem_filter.mp hr).1 x hx
    · intro h row hrow cell hcell
      refine h _ (List.mem_map_of_mem (List.mem_filter.mpr ⟨hrow, ?_⟩)) _ (List.mem_map_of_mem hcell)
      simpa using List.ne_nil_of_mem hcell
  rw [hcells]
  by_cases hrows : cellRows u table = []
  · simp [renderTable, hrows]
  obtain ⟨groups, hg⟩ := renderTable_grouped b table hrows
  have hne : groups ≠ [] := by
    rintro rfl
    have hpieces := hg.pieces_eq
    simp [renderTable, hrows, ← hg.flatten] at hpieces
  rw [hg.pieces_eq]
  constructor
  · intro h row hrow cell hcell c hc
    rcases cell_line hrow hcell hc with ⟨line, hline, hc⟩ | ⟨line, hline, hc⟩
    · obtain ⟨g, hgroup⟩ := List.exists_mem_of_ne_nil _ hne
      refine h _ (List.mem_map_of_mem hgroup) c ?_
      exact (infix_join (List.mem_cons_self)).subset ((infix_join hline).subset hc)
    · rw [← hg.flatten] at hline
      obtain ⟨g, hgroup, hline⟩ := List.mem_flatten.mp hline
      exact h _ (List.mem_map_of_mem hgroup) c
        ((infix_join (List.mem_cons_of_mem _ hline)).subset hc)
  · intro h piece hpiece
    obtain ⟨g, hgroup, rfl⟩ := List.mem_map.mp hpiece
    have hline := line_cell h
    have hnew : Printable "\n".toList := by simp [Printable, printable]
    apply Printable.join hnew
    intro p hp
    rcases List.mem_cons.mp hp with rfl | hp
    · exact Printable.join hnew fun line hl => hline line (List.mem_append_left _ hl)
    · exact hline p (List.mem_append_right _ (hg.flatten ▸ List.mem_flatten.mpr ⟨g, hgroup, hp⟩))

end Rows

section Headings

variable {place : Nat} {unit : NormalizedUnit} {headings : List Heading} {P : Text → Prop}

/-- What holds of every heading a unit has holds of the headings its passages are cited under. -/
theorem sectionEntries_heading {secs : List Section} {current : Option Text}
    {ts : List ExtractedTable} {fs : List ExtractedFigure}
    (hcurrent : ∀ h, current = some h → P h) (hsecs : ∀ sec ∈ secs, ∀ h, sec.heading = some h → P h)
    (hts : ∀ t ∈ ts, ∀ h, truthy t.heading = some h → P h)
    (hfs : ∀ f ∈ fs, ∀ h, truthy f.heading = some h → P h) :
    ∀ e ∈ sectionEntries u b place unit headings current ts fs secs, ∀ h, e.heading = some h → P h := by
  induction secs generalizing current ts fs with
  | nil =>
    have hfallback : ∀ h, (if 1 < headings.length then none else current) = some h → P h := by
      intro h hh
      split at hh
      · cases hh
      · exact hcurrent h hh
    have hown : ∀ own h, (∀ h, own = some h → P h) →
        (own.orElse fun _ => if 1 < headings.length then none else current) = some h → P h := by
      intro own h how hh
      cases own with
      | none => exact hfallback h hh
      | some o => exact how h hh
    intro e he h hh
    rcases List.mem_append.mp he with he | he
    · obtain ⟨t, ht, rfl⟩ := List.mem_map.mp he
      exact hown _ h (hts t ht) hh
    · obtain ⟨f, hf, rfl⟩ := List.mem_map.mp he
      exact hown _ h (hfs f hf) hh
  | cons sec secs ih =>
    have hafter : ∀ h, headingAfter current sec = some h → P h := by
      intro h hh
      cases hs : sec.heading with
      | none => exact hcurrent h (by simpa [headingAfter, hs] using hh)
      | some own => exact hsecs sec (by simp) h (by simpa [headingAfter, hs] using hh)
    intro e he h hh
    rw [sectionEntries, List.mem_append, List.mem_append] at he
    rcases he with he | he | he
    · split at he
      · cases he
      · rw [List.mem_singleton.mp he] at hh
        exact hafter h hh
    · unfold attachedEntries at he
      split at he
      · cases he
      · rename_i own hs
        have heading : e.heading = some own := by
          rcases List.mem_append.mp he with he | he
          · obtain ⟨t, -, rfl⟩ := List.mem_map.mp he
            rfl
          · obtain ⟨f, -, rfl⟩ := List.mem_map.mp he
            rfl
        exact hsecs sec (by simp) h (hs.trans (heading.symm.trans hh))
    · exact ih hafter (fun s hs => hsecs s (by simp [hs])) (fun t ht => hts t (List.mem_filter.mp ht).1)
        (fun f hf => hfs f (List.mem_filter.mp hf).1) e he h hh

variable {result : NormalizationResult}

theorem carriedOver_some {current : Option Text} {h : Text}
    (hh : carriedOver result current = some h) : current = some h := by
  unfold carriedOver at hh
  split at hh
  · cases hh
  · exact hh

theorem headingBefore_of (hsecs : ∀ unit ∈ result.units, ∀ sec ∈ sectionsOf u result unit,
      ∀ h, sec.heading = some h → P h) (place : Nat) :
    ∀ h, headingBefore u result place = some h → P h := by
  have hunit : ∀ unit : NormalizedUnit × Nat, unit.1 ∈ result.units → ∀ current : Option Text,
      (∀ h, current = some h → P h) → ∀ h, headingAfterUnit u result current unit = some h → P h := by
    intro unit hmem current hcurrent
    have hfold : ∀ (secs : List Section) (st : Option Text), (∀ sec ∈ secs, ∀ h,
        sec.heading = some h → P h) → (∀ h, st = some h → P h) →
        ∀ h, secs.foldl headingAfter st = some h → P h := by
      intro secs
      induction secs with
      | nil => exact fun _ _ hst => hst
      | cons sec secs ih =>
        intro st hs hst
        refine ih _ (fun s hs' => hs s (by simp [hs'])) fun h hh => ?_
        cases hown : sec.heading with
        | none => exact hst h (by simpa [headingAfter, hown] using hh)
        | some own => exact hs sec (by simp) h (by simpa [headingAfter, hown] using hh)
    exact hfold _ _ (hsecs _ hmem) fun h hh => hcurrent h (carriedOver_some hh)
  have hrun : ∀ (units : List (NormalizedUnit × Nat)) (current : Option Text),
      (∀ unit ∈ units, unit.1 ∈ result.units) → (∀ h, current = some h → P h) →
      ∀ h, units.foldl (headingAfterUnit u result) current = some h → P h := by
    intro units
    induction units with
    | nil => exact fun _ _ hcurrent => hcurrent
    | cons unit units ih =>
      exact fun current hmem hcurrent => ih _ (fun p hp => hmem p (by simp [hp]))
        (hunit unit (hmem unit (by simp)) current hcurrent)
  apply hrun _ _ _ (by simp)
  intro p hp
  obtain ⟨i, hi⟩ := List.mem_iff_getElem?.mp (List.mem_of_mem_take hp)
  rw [List.getElem?_zipIdx] at hi
  obtain ⟨unit, hunit, rfl⟩ := Option.map_eq_some_iff.mp hi
  exact List.mem_of_getElem? hunit

end Headings

section Document

variable {result : NormalizationResult}

theorem chunk_of_table {place : Nat} {unit : NormalizedUnit} {t : ExtractedTable} {text : Text}
    (hunit : result.units[place]? = some unit) (ht : t ∈ tablesOf result unit)
    (htext : text ∈ renderTable u b t) : ∃ c ∈ chunk u b result, c.text = text := by
  have hperm : (tablesIn (unitEntries u b result (headingBefore u result place)
      (unit, place))).Perm (tablesOf result unit) := sectionEntries_tables _ _ _ _
  have hmem := hperm.mem_iff.mpr ht
  obtain ⟨e, he, horigin⟩ := List.mem_filterMap.mp hmem
  have htexts := (entries_table (mem_entries.mpr ⟨place, unit, hunit, he⟩) horigin).2
  obtain ⟨i, hi⟩ := chunk_of_entry hunit he (htexts ▸ htext)
  exact ⟨_, hi, rfl⟩

/-- Where units, headings and figures are cleaned, only a table's cells can bring a control
character into a passage. -/
theorem chunk_printable_iff (hunits : ∀ unit ∈ result.units, Printable unit.text)
    (hheadings : ∀ heading ∈ result.headings, Printable heading.text)
    (htables : ∀ t ∈ result.tables, ∀ h, truthy t.heading = some h → Printable h)
    (hfigures : ∀ f ∈ result.figures, Printable f.text ∧
      (∀ caption, f.caption = some caption → Printable caption) ∧
      ∀ h, truthy f.heading = some h → Printable h) :
    (∀ c ∈ chunk u b result,
      Printable c.text ∧ ∀ heading, c.sectionHeading = some heading → Printable heading) ↔
      ∀ unit ∈ result.units, ∀ t ∈ tablesOf result unit,
        ∀ row ∈ t.rows, ∀ cell ∈ row, Printable (cellText u cell) := by
  have hsecs : ∀ unit ∈ result.units, ∀ sec ∈ sectionsOf u result unit,
      Section.Of u unit.text (headingsOf result unit) sec := by
    intro unit _ sec hsec
    unfold sectionsOf at hsec
    split at hsec
    · cases hsec
    · exact splitUnit_of unit _ sec hsec
  have hnames : ∀ unit ∈ result.units, ∀ sec ∈ sectionsOf u result unit,
      ∀ h, sec.heading = some h → Printable h := by
    intro unit hunit sec hsec h hh
    obtain ⟨heading, hmem, rfl⟩ := (hsecs unit hunit sec hsec).heading h hh
    exact (hheadings heading (List.mem_filter.mp hmem).1).trim
  constructor
  · intro h unit hunit t ht
    rw [← printable_renderTable_iff b]
    intro piece hpiece
    obtain ⟨place, hplace⟩ := List.mem_iff_getElem?.mp hunit
    obtain ⟨c, hc, rfl⟩ := chunk_of_table hplace ht hpiece
    exact (h c hc).1
  · intro h c hc
    constructor
    · obtain ⟨place, unit, hunit, hc⟩ := mem_chunk hc
      have hmem := List.mem_of_getElem? hunit
      rcases hc with ⟨sec, hsec, -, hc⟩ | ⟨t, ht, -, hc⟩ | ⟨f, hf, -, hc⟩
      · have hof := hsecs unit hmem sec (keptSections_subset sec hsec)
        exact printable_splitToSize ((hunits unit hmem).of_subset hof.body) _ hc
      · exact (printable_renderTable_iff b t).mpr (h unit hmem t ht) _ hc
      · obtain ⟨htext, hcaption, -⟩ := hfigures f (List.mem_filter.mp hf).1
        have hnotice : Printable figureNotice :=
          fun d hd => List.all_eq_true.mp (by decide +kernel) d hd
        refine printable_splitToSize ?_ _ hc
        have hlabel : ∀ caption, truthy f.caption = some caption →
            Printable (figureNotice ++ " ".toList ++ caption) := by
          intro caption hcap
          refine (hnotice.append (by simp [Printable, printable])).append (hcaption caption ?_)
          exact (Option.filter_eq_some_iff.mp hcap).1
        unfold figureBody
        dsimp only
        cases hcap : truthy f.caption with
        | none =>
          split
          · exact hnotice
          · exact (hnotice.append (by simp [Printable, printable])).append htext
        | some caption =>
          split
          · exact hlabel caption hcap
          · exact ((hlabel caption hcap).append (by simp [Printable, printable])).append htext
    · rw [chunk_eq] at hc
      obtain ⟨e, he, t, -, i, rfl⟩ := mem_numbered hc
      obtain ⟨place, unit, hunit, he⟩ := mem_entries.mp he
      have hmem := List.mem_of_getElem? hunit
      refine sectionEntries_heading (fun h hh => ?_) (hnames unit hmem)
        (fun t ht => htables t (List.mem_filter.mp ht).1)
        (fun f hf => (hfigures f (List.mem_filter.mp hf).1).2.2) e he
      exact headingBefore_of hnames place h (carriedOver_some hh)

end Document

end Chunker

section Passages

variable (s : NormalizationService)

theorem cleanOption_printable {text : Option Text} {t : Text} (h : s.cleanOption text = some t) :
    Printable t := by
  obtain ⟨raw, -, h⟩ := Option.bind_eq_some_iff.mp h
  rw [← Option.some.inj (Option.filter_eq_some_iff.mp h).1]
  exact TextCleaner.clean_printable raw

/-- No stored passage, and no heading one is cited under, holds a control character exactly where
no line of a cell, in a table of some unit, holds one between its ends. -/
theorem passages_printable_iff (b : SizeBudget) (extraction : ExtractionResult) :
    (∀ c ∈ Chunker.chunk s.tables b (s.normalize extraction),
      Printable c.text ∧ ∀ heading, c.sectionHeading = some heading → Printable heading) ↔
      ∀ unit ∈ extraction.units, ∀ table ∈ extraction.tables, table.unitIndex = unit.index →
        ∀ row ∈ table.rows, ∀ cell ∈ row, ∀ line ∈ Chunker.splitlines [] cell,
          Printable (trim s.tables line) := by
  have hkept : ∀ table, (s.cleanTable table).rows = table.rows ∧
      (s.cleanTable table).unitIndex = table.unitIndex := by
    intro table
    unfold NormalizationService.cleanTable
    split <;> exact ⟨rfl, rfl⟩
  rw [Chunker.chunk_printable_iff]
  · simp only [Chunker.printable_cellText_iff]
    constructor
    · intro h unit hunit table htable hidx
      rw [← (hkept table).1]
      refine h (s.cleanUnit unit) (List.mem_map_of_mem hunit) (s.cleanTable table) ?_
      refine List.mem_filter.mpr ⟨List.mem_map_of_mem htable, ?_⟩
      simp [(hkept table).2, hidx, NormalizationService.cleanUnit]
    · intro h unit hunit t ht
      obtain ⟨hmem, hidx⟩ := List.mem_filter.mp ht
      obtain ⟨raw, hraw, rfl⟩ := List.mem_map.mp hunit
      obtain ⟨table, htable, rfl⟩ := List.mem_map.mp hmem
      rw [(hkept table).1]
      refine h raw hraw table htable ?_
      simpa [(hkept table).2, NormalizationService.cleanUnit] using hidx
  · intro unit hunit
    obtain ⟨unit, -, rfl⟩ := List.mem_map.mp hunit
    exact TextCleaner.clean_printable _
  · intro heading hheading
    obtain ⟨heading, -, rfl⟩ := List.mem_map.mp (List.mem_filter.mp hheading).1
    exact TextCleaner.clean_printable _
  · intro t ht h hh
    obtain ⟨table, -, rfl⟩ := List.mem_map.mp ht
    have hsome := Option.filter_eq_some_iff.mp hh
    unfold NormalizationService.cleanTable at hsome
    split at hsome
    · exact cleanOption_printable s hsome.1
    · rename_i hnone
      exact absurd (Option.isSome_of_eq_some hh) (by rwa [NormalizationService.cleanTable, if_neg hnone])
  · intro f hf
    obtain ⟨figure, -, hf⟩ := List.mem_filterMap.mp hf
    simp only [NormalizationService.cleanFigure] at hf
    split at hf
    · cases hf
    · obtain rfl := Option.some.inj hf
      exact ⟨TextCleaner.clean_printable _, fun _ hc => cleanOption_printable s hc,
        fun _ hh => cleanOption_printable s (Option.filter_eq_some_iff.mp hh).1⟩

def nulCell : ExtractionResult :=
  { documentId := 1, mimeType := pdfMime,
    units := [{ index := 1, label := "Page 1".toList, text := "Load".toList }], headings := [],
    tables := [{ unitIndex := 1, rows := [["34\x001".toList]] }], figures := [] }

/-- A NUL inside a cell is in the passage the table is rendered to. -/
theorem nul_is_stored :
    ¬ ∀ c ∈ Chunker.chunk asciiService.tables (characterBudget {} none none)
        (asciiService.normalize nulCell),
      Printable c.text ∧ ∀ heading, c.sectionHeading = some heading → Printable heading := by
  intro h
  have hall : (Chunker.chunk asciiService.tables (characterBudget {} none none)
      (asciiService.normalize nulCell)).all (·.text.all printable) = true :=
    List.all_eq_true.mpr fun c hc => List.all_eq_true.mpr (h c hc).1
  exact absurd hall (by decide +kernel)

end Passages

end KnowledgeBase.Artifact
