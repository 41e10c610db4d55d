import KnowledgeBase.Splitting

/-! The size of prose and figure passages. Every piece is checked against the maximum but the
slices of a run that has no boundary: their width is estimated from the run as a whole. -/

namespace KnowledgeBase.Artifact.Chunker

variable (u : Tables) (b : SizeBudget)

/-- The runs over the maximum, without a boundary in them, that a text comes down to. -/
inductive Run : Text → Text → Prop
  | here {text : Text} (hne : trim u text ≠ []) (hover : b.maximum < b.measure (trim u text))
      (hwhole : ¬ 1 < (boundaryParts u (trim u text)).length) : Run text (trim u text)
  | part {text part run : Text} (hne : trim u text ≠ [])
      (hover : b.maximum < b.measure (trim u text))
      (hcut : 1 < (boundaryParts u (trim u text)).length)
      (hpart : part ∈ boundaryParts u (trim u text)) (hlarge : b.maximum < b.measure part)
      (h : Run part run) : Run text run

/-- No stretch of the width that fits on average is denser than the maximum allows. -/
def Even (run : Text) : Prop :=
  ∀ slice ∈ slices (wrapWidth b run) run, trim u slice ≠ [] →
    b.measure (trim u slice) ≤ b.maximum

variable {u b}

theorem over_of_not_fits {text : Text} (h : ¬ b.fits text = true) :
    b.maximum < b.measure text := by
  simpa [SizeBudget.fits] using h

theorem not_fits_of_over {text : Text} (h : b.maximum < b.measure text) : ¬ b.fits text = true := by
  simpa [SizeBudget.fits] using h

theorem mem_hardWrap {text : Text} (hover : b.maximum < b.measure text) {piece : Text} :
    piece ∈ hardWrap u b text ↔
      ∃ slice ∈ slices (wrapWidth b text) text, trim u slice ≠ [] ∧ trim u slice = piece := by
  have hpos : b.measure text ≠ 0 := by omega
  rw [hardWrap, if_neg hpos, List.mem_filter, List.mem_map]
  constructor
  · rintro ⟨⟨slice, hslice, rfl⟩, hne⟩
    exact ⟨slice, hslice, by simpa using hne, rfl⟩
  · rintro ⟨slice, hslice, hne, rfl⟩
    exact ⟨⟨slice, hslice, rfl⟩, by simpa using hne⟩

/-- What is checked fits, so where the runs are even every piece does. -/
theorem splitToSize_le (htarget : b.target ≤ b.maximum) (text : Text)
    (heven : ∀ run, Run u b text run → Even u b run) :
    ∀ piece ∈ splitToSize u b text, b.measure piece ≤ b.maximum := by
  revert heven
  refine splitToSize.induct u b
    (fun text => (∀ run, Run u b text run → Even u b run) →
      ∀ piece ∈ splitToSize u b text, b.measure piece ≤ b.maximum)
    (fun parts buffer =>
      (∀ part ∈ parts, b.maximum < b.measure part → ∀ run, Run u b part run → Even u b run) →
      (buffer = [] ∨ b.measure buffer ≤ b.maximum) →
        ∀ piece ∈ pack u b parts buffer, b.measure piece ≤ b.maximum)
    ?blank ?fits ?cut ?wrap ?nil ?last ?large ?flush ?join text
  case blank =>
    intro text h _
    simp [splitToSize_blank h]
  case fits =>
    intro text h hf _
    rw [splitToSize_fits h hf]
    simpa [SizeBudget.fits] using hf
  case cut =>
    intro text h hf hp ih heven
    rw [splitToSize_pack h hf hp]
    exact ih (fun part hpart hlarge run hrun =>
      heven run (.part h (over_of_not_fits hf) hp hpart hlarge hrun)) (.inl rfl)
  case wrap =>
    intro text h hf hp heven piece hpiece
    have hover := over_of_not_fits hf
    rw [splitToSize_wrap h hf hp] at hpiece
    obtain ⟨slice, hslice, hne, rfl⟩ := (mem_hardWrap hover).mp hpiece
    exact heven _ (.here h hover hp) slice hslice hne
  case nil => simp [pack_nil]
  case last =>
    intro buffer hb _ hbuf
    rw [pack_nil, if_neg hb]
    simpa [hb] using hbuf
  case large =>
    intro buffer part parts h ihs ihp hparts hbuf piece hpiece
    rw [pack_over h, List.mem_append, List.mem_append] at hpiece
    rcases hpiece with (hpiece | hpiece) | hpiece
    · split at hpiece
      · cases hpiece
      · rename_i hb
        rw [List.mem_singleton.mp hpiece]
        exact hbuf.resolve_left hb
    · exact ihs (hparts part (by simp) h) piece hpiece
    · exact ihp (fun q hq => hparts q (by simp [hq])) (.inl rfl) piece hpiece
  case flush =>
    intro buffer part parts h ht ih hparts hbuf piece hpiece
    rw [pack_flush h ht] at hpiece
    rcases List.mem_cons.mp hpiece with rfl | hpiece
    · exact hbuf.resolve_left ht.1
    · exact ih (fun q hq => hparts q (by simp [hq])) (.inr (Nat.le_of_not_lt h)) piece hpiece
  case join =>
    intro buffer part parts h ht ih hparts hbuf piece hpiece
    rw [pack_join h ht] at hpiece
    simp only [dite_eq_ite] at ih
    apply ih (fun q hq => hparts q (by simp [hq])) (.inr _) piece hpiece
    split
    · exact Nat.le_of_not_lt h
    · rename_i hb
      simp only [ne_eq, hb, not_false_eq_true, true_and, Nat.not_lt] at ht
      exact ht.trans htarget

theorem pack_large {parts : List Text} {part piece : Text} (hpart : part ∈ parts)
    (hlarge : b.maximum < b.measure part) (hpiece : piece ∈ splitToSize u b part) (buffer : Text) :
    piece ∈ pack u b parts buffer := by
  induction parts generalizing buffer with
  | nil => cases hpart
  | cons q parts ih =>
    rcases List.mem_cons.mp hpart with rfl | hpart
    · rw [pack_over hlarge]
      simp [hpiece]
    · by_cases h : b.maximum < b.measure q
      · rw [pack_over h]
        exact List.mem_append_right _ (ih hpart _)
      · by_cases ht : buffer ≠ [] ∧ b.target < b.measure (buffer ++ "\n\n".toList ++ q)
        · rw [pack_flush h ht]
          exact List.mem_cons_of_mem _ (ih hpart _)
        · rw [pack_join h ht]
          exact ih hpart _

/-- The slices of a run are pieces as they are. -/
theorem Run.mem_splitToSize {text run slice : Text} (h : Run u b text run)
    (hslice : slice ∈ slices (wrapWidth b run) run) (hne : trim u slice ≠ []) :
    trim u slice ∈ splitToSize u b text := by
  induction h with
  | here hnb hover hwhole =>
    rw [splitToSize_wrap hnb (not_fits_of_over hover) hwhole]
    exact (mem_hardWrap hover).mpr ⟨slice, hslice, hne, rfl⟩
  | part hnb hover hcut hpart hlarge _ ih =>
    rw [splitToSize_pack hnb (not_fits_of_over hover) hcut]
    exact pack_large hpart hlarge (ih hslice) []

theorem splitToSize_le_iff (htarget : b.target ≤ b.maximum) (text : Text) :
    (∀ piece ∈ splitToSize u b text, b.measure piece ≤ b.maximum) ↔
      ∀ run, Run u b text run → Even u b run :=
  ⟨fun h _ hrun _ hslice hne => h _ (hrun.mem_splitToSize hslice hne), splitToSize_le htarget text⟩

theorem tokenBudget_target_le (cfg : ChunkSettings) (counter : TokenCounter)
    (target maximum : Option Nat) :
    (tokenBudget cfg counter target maximum).target ≤
      (tokenBudget cfg counter target maximum).maximum := Nat.min_le_right _ _

/-- A text that is split to size: a section made into chunks or what a figure says. -/
def SplitToSize (u : Tables) (result : NormalizationResult) (text : Text) : Prop :=
  ∃ unit ∈ result.units, (∃ sec ∈ proseSections u result unit, text = sec.body) ∨
    ∃ f ∈ figuresOf result unit, text = figureBody f

/-- A run that counts its letters `a` alone. -/
def letterCounter : TokenCounter := { count := List.count 'a', maxSequenceTokens := 512 }

def unevenRun : NormalizationResult :=
  { documentId := 1, mimeType := pdfMime, language := none,
    units := [{ index := 1, label := [], text := "aabbbb".toList }],
    headings := [], tables := [], figures := [],
    quality := { passed := true, failures := [], details := { charCount := 6, unitCount := 1 } } }

end KnowledgeBase.Artifact.Chunker
