import KnowledgeBase.Splitting

/-! Tables are rendered whole: the pieces begin with one header block, their body lines are the
rows after the header, and the document renders each table of its units once. -/

namespace KnowledgeBase.Artifact

def NoBreak (text : Text) : Prop := ∀ c ∈ text, Chunker.isLineBreak c = false

section Lines

theorem NoBreak.not_mem_newline {text : Text} (h : NoBreak text) : '\n' ∉ text := by
  intro hc
  have := h _ hc
  revert this
  decide

theorem mem_join {sep : String} {parts : List Text} {c : Char} (h : c ∈ join sep parts) :
    c ∈ sep.toList ∨ ∃ p ∈ parts, c ∈ p := by
  induction parts with
  | nil => simp [join] at h
  | cons p parts ih =>
    by_cases hp : parts = []
    · subst hp
      simp only [join, List.intercalate_singleton] at h
      exact .inr ⟨p, by simp, h⟩
    · rw [join, List.intercalate_cons_of_ne_nil hp, List.mem_append, List.mem_append] at h
      rcases h with (h | h) | h
      · exact .inr ⟨p, by simp, h⟩
      · exact .inl h
      · rcases ih h with h | ⟨q, hq, hc⟩
        · exact .inl h
        · exact .inr ⟨q, by simp [hq], hc⟩

theorem infix_join {sep : String} {parts : List Text} {p : Text} (h : p ∈ parts) :
    p <:+: join sep parts := by
  obtain ⟨before, after, rfl⟩ := List.append_of_mem h
  induction before with
  | nil =>
    cases after with
    | nil => simp [join]
    | cons q after =>
      rw [join, List.nil_append, List.intercalate_cons_of_ne_nil (by simp), List.append_assoc]
      exact (List.prefix_append _ _).isInfix
  | cons q before ih =>
    rw [join, List.cons_append, List.intercalate_cons_of_ne_nil (by simp)]
    exact (ih (by simp)).trans (List.suffix_append _ _).isInfix

theorem noBreak_join {sep : String} {parts : List Text} (hsep : NoBreak sep.toList)
    (h : ∀ p ∈ parts, NoBreak p) : NoBreak (join sep parts) := by
  intro c hc
  rcases mem_join hc with hc | ⟨p, hp, hc⟩
  · exact hsep c hc
  · exact h p hp c hc

theorem join_join {sep : String} {hs : List Text} (hne : hs ≠ []) (g : List Text) :
    join sep (join sep hs :: g) = join sep (hs ++ g) := by
  induction hs with
  | nil => exact absurd rfl hne
  | cons x hs ih =>
    by_cases hhs : hs = []
    · subst hhs
      simp [join]
    · have hne' : hs ++ g ≠ [] := by simp [hhs]
      have h := ih hhs
      rw [join, join, List.cons_append, join, List.intercalate_cons_of_ne_nil hhs,
        List.intercalate_cons_of_ne_nil hne']
      by_cases hg : g = []
      · subst hg
        simp
      · simp only [join, List.intercalate_cons_of_ne_nil hg] at h ⊢
        rw [← h]
        simp

variable {u : Tables}

theorem noBreak_trim {text : Text} (h : NoBreak text) : NoBreak (trim u text) := by
  intro c hc
  apply h
  have h1 := List.mem_reverse.mp hc
  have h2 := List.mem_reverse.mp ((List.dropWhile_sublist _).mem h1)
  exact (List.dropWhile_sublist _).mem h2

theorem noBreak_splitlines {line text : Text} (hline : NoBreak line) :
    ∀ l ∈ Chunker.splitlines line text, NoBreak l := by
  have hrev : NoBreak line.reverse := fun c hc => hline c (List.mem_reverse.mp hc)
  fun_induction Chunker.splitlines line text with
  | case1 => simp
  | case2 line _ => simpa using hrev
  | case3 line text ih =>
    intro l hl
    rcases List.mem_cons.mp hl with rfl | hl
    · exact hrev
    · exact ih (by simp [NoBreak]) (by simp [NoBreak]) l hl
  | case4 line c text _ hc ih =>
    intro l hl
    rcases List.mem_cons.mp hl with rfl | hl
    · exact hrev
    · exact ih (by simp [NoBreak]) (by simp [NoBreak]) l hl
  | case5 line c text _ hc ih =>
    have hcons : NoBreak (c :: line) := by
      intro d hd
      rcases List.mem_cons.mp hd with rfl | hd
      · simpa using hc
      · exact hline d hd
    exact ih hcons (fun d hd => hcons d (List.mem_reverse.mp hd))

/-- A cell is on one line. -/
theorem noBreak_cellText (cell : Text) : NoBreak (Chunker.cellText u cell) := by
  apply noBreak_join (by simp [NoBreak, Chunker.isLineBreak])
  intro p hp
  obtain ⟨l, hl, rfl⟩ := List.mem_map.mp (List.mem_filter.mp hp).1
  exact noBreak_trim (noBreak_splitlines (by simp [NoBreak]) l hl)

end Lines

namespace Chunker

variable (u : Tables) (b : SizeBudget)

section Groups

/-- The pieces are the header with one group of rows after another. -/
structure Grouped (header : Text) (rows : List Text) (pieces : List Text)
    (groups : List (List Text)) : Prop where
  pieces_eq : pieces = groups.map fun g => join "\n" (header :: g)
  flatten : groups.flatten = rows
  fits : ∀ g ∈ groups, 1 < g.length → b.fits (join "\n" (header :: g)) = true

variable {b} {header : Text}

theorem Grouped.append {rows rows' pieces pieces' : List Text} {groups groups' : List (List Text)}
    (h : Grouped b header rows pieces groups) (h' : Grouped b header rows' pieces' groups') :
    Grouped b header (rows ++ rows') (pieces ++ pieces') (groups ++ groups') where
  pieces_eq := by rw [h.pieces_eq, h'.pieces_eq, List.map_append]
  flatten := by rw [List.flatten_append, h.flatten, h'.flatten]
  fits := fun g hg => (List.mem_append.mp hg).elim (h.fits g) (h'.fits g)

theorem fitGroup_grouped (rows : List Text) :
    ∃ groups, Grouped b header rows (fitGroup b header rows) groups := by
  induction rows using fitGroup.induct b header with
  | case1 rows h =>
    refine ⟨[rows], by rw [fitGroup, if_pos h]; rfl, by simp, ?_⟩
    simp only [List.mem_singleton, forall_eq]
    exact fun hlt => h.resolve_left (Nat.not_le_of_lt hlt)
  | case2 rows h ihl ihr =>
    obtain ⟨left, hleft⟩ := ihl
    obtain ⟨right, hright⟩ := ihr
    refine ⟨left ++ right, ?_⟩
    rw [fitGroup, if_neg h]
    have := hleft.append hright
    rwa [List.take_append_drop] at this

theorem rowGroups_flatten (headerSize ceiling : Nat) (lines buffer : List Text) (running : Nat) :
    (rowGroups b headerSize ceiling buffer running lines).flatten = buffer ++ lines := by
  induction lines generalizing buffer running with
  | nil =>
    simp only [rowGroups]
    split <;> simp [*]
  | cons line lines ih =>
    simp only [rowGroups]
    split
    · simp [ih]
    · simp [ih]

theorem groupRows_grouped (lines : List Text) :
    ∃ groups, Grouped b header lines (groupRows b header lines) groups := by
  have hall : ∀ gs : List (List Text),
      ∃ groups, Grouped b header gs.flatten (gs.flatMap (fitGroup b header)) groups := by
    intro gs
    induction gs with
    | nil => exact ⟨[], rfl, rfl, by simp⟩
    | cons g gs ih =>
      obtain ⟨first, hfirst⟩ : ∃ groups, Grouped b header g (fitGroup b header g) groups :=
        fitGroup_grouped g
      obtain ⟨rest, hrest⟩ := ih
      exact ⟨first ++ rest, hfirst.append hrest⟩
  obtain ⟨groups, h⟩ := hall (rowGroups b (b.measure header) (max (b.measure header + 1)
    ⌊Binary64.float (Binary64.float b.maximum * Binary64.float (9 / 10))⌋₊) [] (b.measure header)
    lines)
  rw [rowGroups_flatten, List.nil_append] at h
  exact ⟨groups, h⟩

end Groups

section Table

variable {u} (table : ExtractedTable)

theorem cellRows_noBreak {row : List Text} (h : row ∈ cellRows u table) : ∀ c ∈ row, NoBreak c := by
  obtain ⟨cells, -, rfl⟩ := List.mem_map.mp h
  intro c hc
  obtain ⟨cell, -, rfl⟩ := List.mem_map.mp hc
  exact noBreak_cellText cell

theorem headerLines_noBreak : ∀ line ∈ headerLines (cellRows u table), NoBreak line := by
  intro line hline
  rcases List.mem_append.mp hline with hline | hline
  · obtain ⟨row, hrow, rfl⟩ := List.mem_map.mp hline
    have hcells := cellRows_noBreak table (List.mem_of_mem_take hrow)
    apply noBreak_join (by simp [NoBreak, Chunker.isLineBreak])
    exact fun p hp => hcells p (List.mem_filter.mp hp).1
  · rw [List.mem_singleton.mp hline]
    apply noBreak_join (by simp [NoBreak, Chunker.isLineBreak])
    intro p hp
    rw [List.getD_eq_getElem?_getD] at hp
    cases hget : (cellRows u table)[headerRow (cellRows u table)]? with
    | none =>
      rw [hget] at hp
      cases hp
    | some row =>
      rw [hget] at hp
      exact cellRows_noBreak table (List.mem_of_getElem? hget) p hp

theorem bodyLines_noBreak : ∀ line ∈ bodyLines (cellRows u table), NoBreak line := by
  intro line hline
  obtain ⟨row, hrow, rfl⟩ := List.mem_map.mp hline
  apply noBreak_join (by simp [NoBreak, Chunker.isLineBreak])
  exact cellRows_noBreak table (List.mem_of_mem_drop hrow)

theorem renderTable_grouped (hrows : cellRows u table ≠ []) :
    ∃ groups, Grouped b (join "\n" (headerLines (cellRows u table))) (bodyLines (cellRows u table))
      (renderTable u b table) groups := by
  simp only [renderTable, if_neg hrows]
  split
  · rename_i hbody
    exact ⟨[[]], by simp [join], by simp [hbody], by simp⟩
  · exact groupRows_grouped _

/-- The lines of every piece are the header block and a group of rows; the groups are the rows
after the header, in order; and a piece of more than one row fits. -/
theorem renderTable_lines (hrows : cellRows u table ≠ []) :
    ∃ groups : List (List Text),
      (renderTable u b table).map (·.splitOn '\n') =
        groups.map (headerLines (cellRows u table) ++ ·) ∧
      groups.flatten = bodyLines (cellRows u table) ∧
      ∀ piece ∈ renderTable u b table,
        (headerLines (cellRows u table)).length + 1 < (piece.splitOn '\n').length →
          b.fits piece = true := by
  obtain ⟨groups, hgroups⟩ := renderTable_grouped b table hrows
  have hne : headerLines (cellRows u table) ≠ [] := by simp [headerLines]
  have hpiece : ∀ g ∈ groups,
      (join "\n" (join "\n" (headerLines (cellRows u table)) :: g)).splitOn '\n' =
        headerLines (cellRows u table) ++ g := by
    intro g hg
    rw [join_join hne]
    apply List.splitOn_intercalate '\n' _ (by simp [hne])
    intro line hline
    apply NoBreak.not_mem_newline
    rcases List.mem_append.mp hline with hline | hline
    · exact headerLines_noBreak table line hline
    · apply bodyLines_noBreak table
      rw [← hgroups.flatten]
      exact List.mem_flatten.mpr ⟨g, hg, hline⟩
  refine ⟨groups, ?_, hgroups.flatten, ?_⟩
  · rw [hgroups.pieces_eq, List.map_map]
    exact List.map_congr_left hpiece
  · intro piece hmem hlen
    rw [hgroups.pieces_eq] at hmem
    obtain ⟨g, hg, rfl⟩ := List.mem_map.mp hmem
    rw [hpiece g hg, List.length_append] at hlen
    exact hgroups.fits g hg (by omega)

end Table

section Document

/-- The table an entry renders. -/
def Origin.table? : Origin → Option ExtractedTable
  | .table t => some t
  | _ => none

def tablesIn (es : List Entry) : List ExtractedTable := es.filterMap fun e => Origin.table? e.origin

variable {u b} {place : Nat} {unit : NormalizedUnit} {headings : List Heading}

theorem sectionEntries_tables (secs : List Section) (current : Option Text)
    (ts : List ExtractedTable) (fs : List ExtractedFigure) :
    (tablesIn (sectionEntries u b place unit headings current ts fs secs)).Perm ts := by
  have htable : ∀ (g : ExtractedTable → Option Text) (ts : List ExtractedTable),
      tablesIn (ts.map fun t => tableEntry u b unit (g t) t) = ts := by
    intro g ts
    simp [tablesIn, List.filterMap_map, tableEntry, Origin.table?]
  have hfigure : ∀ (g : ExtractedFigure → Option Text) (fs : List ExtractedFigure),
      tablesIn (fs.map fun f => figureEntry u b unit (g f) f) = [] := by
    intro g fs
    simp [tablesIn, List.filterMap_map, figureEntry, Origin.table?]
  have happend : ∀ es es' : List Entry, tablesIn (es ++ es') = tablesIn es ++ tablesIn es' :=
    fun es es' => List.filterMap_append
  induction secs generalizing current ts fs with
  | nil =>
    rw [sectionEntries, pendingEntries, happend, htable, hfigure, List.append_nil]
  | cons sec secs ih =>
    have hsec : tablesIn (if TitleAlone u ts fs sec then []
        else [sectionEntry u b place unit (headingAfter current sec) sec]) = [] := by
      split <;> simp [tablesIn, sectionEntry, Origin.table?]
    rw [sectionEntries, happend, hsec, List.nil_append, happend]
    refine (List.Perm.append_left _ (ih _ _ _)).trans ?_
    unfold attachedEntries leftTables
    cases hs : sec.heading with
    | none => simp [tablesIn]
    | some heading =>
      simp only [happend, htable, hfigure, List.append_nil, reduceCtorEq, false_or]
      have h := List.filter_append_perm (fun t : ExtractedTable => t.heading = some heading) ts
      simpa using h

variable {result : NormalizationResult}

theorem entriesFrom_tables (current : Option Text) (units : List (NormalizedUnit × Nat)) :
    (tablesIn (entriesFrom u b result current units)).Perm
      ((units.map Prod.fst).flatMap (tablesOf result)) := by
  induction units generalizing current with
  | nil => exact .refl _
  | cons p units ih =>
    rw [entriesFrom, tablesIn, List.filterMap_append]
    exact (sectionEntries_tables _ _ _ _).append (ih _)

theorem flatMap_filter_perm {α κ : Type*} [DecidableEq κ] (key : α → κ) (l : List α) {ks : List κ}
    (hks : ks.Nodup) :
    (ks.flatMap fun k => l.filter (key · = k)).Perm (l.filter (key · ∈ ks)) := by
  induction ks with
  | nil => simp
  | cons k ks ih =>
    obtain ⟨hk, hks⟩ := List.nodup_cons.mp hks
    have hsplit := List.filter_append_perm (fun a => decide (key a = k))
      (l.filter (key · ∈ k :: ks))
    have hone : (l.filter (key · ∈ k :: ks)).filter (fun a => decide (key a = k)) =
        l.filter (key · = k) := by
      rw [List.filter_filter]
      apply List.filter_congr
      intro a _
      by_cases h : key a = k <;> simp [h]
    have hrest : (l.filter (key · ∈ k :: ks)).filter (fun a => !decide (key a = k)) =
        l.filter (key · ∈ ks) := by
      rw [List.filter_filter]
      apply List.filter_congr
      intro a _
      by_cases h : key a = k
      · simp [h, hk]
      · simp [h]
    rw [hone, hrest] at hsplit
    rw [List.flatMap_cons]
    exact (List.Perm.append_left _ (ih hks)).trans hsplit

/-- What a table's chunks say, and the unit they are cited under. -/
def tableChunks (u : Tables) (b : SizeBudget) (t : ExtractedTable) : List (Option Int × Text) :=
  (renderTable u b t).map fun text => (some t.unitIndex, text)

theorem entries_tableChunks (hes : ∀ e ∈ entries u b result, ∀ t, Origin.table? e.origin = some t →
      e.page = t.unitIndex ∧ e.texts = renderTable u b t) :
    ((chunk u b result).filter (·.isTable)).map (fun c => (c.pageNumber, c.text)) =
      (tablesIn (entries u b result)).flatMap (tableChunks u b) := by
  have hf := numbered_filterMap (f := fun c : Chunk =>
    if c.isTable then some (c.pageNumber, c.text) else none) (entries u b result) (fun _ _ _ => rfl)
  have hl : ((chunk u b result).filter (·.isTable)).map (fun c => (c.pageNumber, c.text)) =
      (chunk u b result).filterMap fun c => if c.isTable then some (c.pageNumber, c.text) else none := by
    rw [← List.filterMap_eq_map, ← List.filterMap_eq_filter, List.filterMap_filterMap]
    congr 1
    funext c
    by_cases hc : c.isTable <;> simp [hc, Option.guard]
  rw [hl, chunk_eq, hf]
  generalize entries u b result = es at hes
  induction es with
  | nil => rfl
  | cons e es ih =>
    have ih := ih fun e he => hes e (by simp [he])
    rw [List.flatMap_cons, ih]
    obtain ⟨origin, texts, page, heading⟩ := e
    cases origin with
    | table t =>
      obtain ⟨rfl, rfl⟩ := hes ⟨.table t, texts, page, heading⟩ (by simp) t rfl
      simp [tablesIn, Origin.table?, Entry.chunk, Origin.isTable, tableChunks]
    | _ => simp [tablesIn, Origin.table?, Entry.chunk, Origin.isTable]

theorem entries_table {e : Entry} (he : e ∈ entries u b result) {t : ExtractedTable}
    (ht : Origin.table? e.origin = some t) : e.page = t.unitIndex ∧ e.texts = renderTable u b t := by
  obtain ⟨_, _, -, he⟩ := mem_entries.mp he
  rcases mem_sectionEntries he with ⟨_, _, _, rfl⟩ | ⟨t', ht', _, rfl⟩ | ⟨_, _, _, rfl⟩
  · cases ht
  · cases ht
    exact ⟨(of_decide_eq_true (List.mem_filter.mp ht').2).symm, rfl⟩
  · cases ht

end Document

end Chunker

end KnowledgeBase.Artifact
