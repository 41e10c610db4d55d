import KnowledgeBase.PassageSize
import KnowledgeBase.ReadableContent
import KnowledgeBase.SectionCitations
import KnowledgeBase.TableRows

/-! Whether a passage read from a picture says so. A table's notice is in its header block and so
in every piece; a figure's notice is the start of its words and stays with the first piece. -/

namespace KnowledgeBase.Artifact

variable {u : Tables}

section Notices

theorem solid_of_ends {text : Text} {c d : Char} {front rest : Text} (hc : text = c :: rest)
    (hd : text = front ++ [d]) (hcs : u.isSpace c = false) (hds : u.isSpace d = false) :
    Solid u text := by
  refine ⟨by simp [hc], ?_⟩
  have hfront : text.dropWhile u.isSpace = text := by
    rw [hc, List.dropWhile_cons, hcs]
    rfl
  have hback : text.reverse.dropWhile u.isSpace = text.reverse := by
    rw [hd, List.reverse_append, List.reverse_singleton, List.singleton_append,
      List.dropWhile_cons, hds]
    rfl
  rw [trim, strip, hfront, hback, List.reverse_reverse]

theorem figureNotice_solid : Solid u figureNotice := by
  have hhead : figureNotice = '[' :: "Figure] (text read from a picture by OCR)".toList := by
    decide
  have hlast : figureNotice = "[Figure] (text read from a picture by OCR".toList ++ [')'] := by
    decide
  apply solid_of_ends hhead hlast
  · exact u.isSpace_graphic _ (by decide) (by decide)
  · exact u.isSpace_graphic _ (by decide) (by decide)

theorem tableNotice_solid : Solid u tableNotice := by
  have hhead : tableNotice = 't' ::
      "able read from a picture by OCR; check against the original before citing".toList := by
    decide
  have hlast : tableNotice =
      "table read from a picture by OCR; check against the original before citin".toList ++ ['g'] := by
    decide
  apply solid_of_ends hhead hlast
  · exact u.isSpace_graphic _ (by decide) (by decide)
  · exact u.isSpace_graphic _ (by decide) (by decide)

/-- What has nothing to trim is still there in the trimmed text. -/
theorem Solid.infix_trim {s text : Text} (h : Solid u s) (hs : s <:+: text) : s <:+: trim u text := by
  obtain ⟨front, back, rfl⟩ := hs
  have hocc : s <+: (front ++ s ++ back).drop front.length := by
    rw [List.append_assoc, List.drop_left]
    exact List.prefix_append _ _
  have hlead := h.lead_le hocc
  have hq : front.length = leadOf u (front ++ s ++ back) +
      (front.length - leadOf u (front ++ s ++ back)) := by omega
  rw [hq, h.occurs_trim] at hocc
  exact hocc.isInfix.trans (List.drop_suffix _ _).isInfix

end Notices

open Regex Recognizers

namespace Chunker

section Tables

theorem splitlines_noBreak {line text : Text} (h : NoBreak text) (hne : line ≠ [] ∨ text ≠ []) :
    splitlines line text = [line.reverse ++ text] := by
  fun_induction splitlines line text with
  | case1 => simp at hne
  | case2 line _ => simp
  | case3 line text ih =>
    have hbreak := h '\n' (by simp)
    simp [isLineBreak] at hbreak
  | case4 line c text _ hc ih =>
    have hbreak := h c (by simp)
    simp [hc] at hbreak
  | case5 line c text _ hc ih =>
    rw [ih (fun d hd => h d (by simp [hd])) (by simp)]
    simp

/-- The end of a text is the end of one of its lines. -/
theorem splitlines_suffix {back line text : Text} (h : NoBreak back) (hne : back ≠ [])
    (hs : back <:+ text) : ∃ l ∈ splitlines line text, back <:+ l := by
  have hbreak : ∀ c ∈ back, isLineBreak c ≠ true := by
    intro c hc
    simp [h c hc]
  fun_induction splitlines line text with
  | case1 => exact absurd (List.suffix_nil.mp hs) hne
  | case2 line _ => exact absurd (List.suffix_nil.mp hs) hne
  | case3 line text ih =>
    have hnew : ∀ rest, back ≠ '\r' :: rest ∧ back ≠ '\n' :: rest := by
      intro rest
      constructor
      · rintro rfl
        exact hbreak '\r' (by simp) (by decide)
      · rintro rfl
        exact hbreak '\n' (by simp) (by decide)
    rcases List.suffix_cons_iff.mp hs with hs | hs
    · exact absurd hs (hnew _).1
    rcases List.suffix_cons_iff.mp hs with hs | hs
    · exact absurd hs (hnew _).2
    obtain ⟨l, hl, hback⟩ := ih hs
    exact ⟨l, by simp [hl], hback⟩
  | case4 line c text _ hc ih =>
    rcases List.suffix_cons_iff.mp hs with rfl | hs
    · exact absurd hc (hbreak c (by simp))
    obtain ⟨l, hl, hback⟩ := ih hs
    exact ⟨l, by simp [hl], hback⟩
  | case5 line c text _ hc ih =>
    rcases List.suffix_cons_iff.mp hs with rfl | hs
    · rw [splitlines_noBreak (fun d hd => h d (by simp [hd])) (by simp)]
      simp
    · exact ih hs

theorem noticeCaption_notice (title : Text) :
    ∃ lead, noticeCaption u title = lead ++ (tableNotice ++ ")".toList) := by
  unfold noticeCaption
  split
  · exact ⟨trim u title ++ " (".toList, by simp⟩
  · exact ⟨"(".toList, by simp⟩

/-- The notice stays whole in the one line of its cell. -/
theorem cellText_caption (title : Text) : tableNotice <:+: cellText u (noticeCaption u title) := by
  have hback : NoBreak (tableNotice ++ ")".toList) := by
    have h : (tableNotice ++ ")".toList).all (isLineBreak · = false) = true := by decide
    intro c hc
    simpa using List.all_eq_true.mp h c hc
  obtain ⟨lead, hlead⟩ := noticeCaption_notice (u := u) title
  obtain ⟨l, hl, hend⟩ : ∃ l ∈ splitlines [] (noticeCaption u title),
      tableNotice ++ ")".toList <:+ l := by
    apply splitlines_suffix hback (by simp)
    rw [hlead]
    exact List.suffix_append _ _
  have hin : tableNotice <:+: trim u l :=
    tableNotice_solid.infix_trim ((List.prefix_append _ _).isInfix.trans hend.isInfix)
  have hne : trim u l ≠ [] := by
    intro h
    rw [h, List.infix_nil] at hin
    exact (tableNotice_solid (u := u)).1 hin
  apply hin.trans (infix_join _)
  exact List.mem_filter.mpr ⟨List.mem_map.mpr ⟨l, hl, rfl⟩, by simpa using hne⟩

/-- A cell of the first row is in the header block: above the header, or the header's own. -/
theorem headerLines_first {cell : Text} {row : List Text} {rows : List (List Text)}
    (hc : cell ∈ row) (hne : cell ≠ []) :
    cell <:+: join "\n" (headerLines (row :: rows)) := by
  cases hrow : headerRow (row :: rows) with
  | zero =>
    have hin : cell <:+: join " | " row := infix_join hc
    apply hin.trans (infix_join _)
    simp [headerLines, hrow]
  | succ i =>
    have hcell : cell ∈ row.filter (· ≠ []) := List.mem_filter.mpr ⟨hc, by simpa using hne⟩
    have hin : cell <:+: join " " (row.filter (· ≠ [])) := infix_join hcell
    apply hin.trans (infix_join _)
    simp [headerLines, hrow]

variable (b : SizeBudget)

/-- The notice of a table is in every piece of it. -/
theorem renderTable_notice {table : ExtractedTable} {rows : List (List Text)} {title : Text}
    (h : table.rows = withOcrNotice u rows title) :
    ∀ piece ∈ renderTable u b table, tableNotice <:+: piece := by
  obtain ⟨cells, rest, hrows⟩ : ∃ cells rest,
      cellRows u table = (cellText u (noticeCaption u title) :: cells) :: rest := by
    simp [cellRows, h, withOcrNotice]
  have hcap := cellText_caption (u := u) title
  have hne : cellText u (noticeCaption u title) ≠ [] := by
    intro hnil
    rw [hnil, List.infix_nil] at hcap
    exact (tableNotice_solid (u := u)).1 hcap
  have hfull : cellRows u table ≠ [] := by simp [hrows]
  obtain ⟨groups, hgroups⟩ := renderTable_grouped b table hfull
  intro piece hpiece
  rw [hgroups.pieces_eq] at hpiece
  obtain ⟨g, -, rfl⟩ := List.mem_map.mp hpiece
  rw [hrows]
  have hfirst : cellText u (noticeCaption u title) <:+: join "\n" (headerLines
      ((cellText u (noticeCaption u title) :: cells) :: rest)) := headerLines_first (by simp) hne
  exact (hcap.trans hfirst).trans (infix_join (by simp))

end Tables

section Boundaries

/-- No boundary is inside the notice, so the first part of a text that begins with it has it. -/
theorem partsAt_notice {pattern : Regex Char} {text : Text} (hn : figureNotice <+: text)
    (h : ∀ i j, Matches text pattern i j → figureNotice.length ≤ i) :
    ∃ part ∈ partsAt u pattern text, figureNotice <:+: part := by
  obtain ⟨first, rest, hsplit, hfirst⟩ := split_first h
  rw [← List.prefix_iff_eq_take.mp hn] at hfirst
  have hin : figureNotice <:+: trim u first := figureNotice_solid.infix_trim hfirst.isInfix
  refine ⟨trim u first, ?_, hin⟩
  rw [partsAt, hsplit, List.map_cons, List.mem_filter]
  refine ⟨by simp, ?_⟩
  have hne : trim u first ≠ [] := by
    intro hnil
    rw [hnil, List.infix_nil] at hin
    exact (figureNotice_solid (u := u)).1 hin
  simpa using hne

theorem getElem?_notice {text : Text} (hn : figureNotice <+: text) {i : Nat} {c : Char}
    (hi : i < figureNotice.length) (hc : text[i]? = some c) :
    c ≠ '\n' ∧ ['.', '!', '?'].contains c = false := by
  obtain ⟨rest, rfl⟩ := hn
  rw [List.getElem?_append_left hi] at hc
  have hall : figureNotice.all
      (fun c => c ≠ '\n' && !(['.', '!', '?'].contains c)) = true := by decide
  have h := List.all_eq_true.mp hall c (List.mem_of_getElem? hc)
  simpa using h

theorem paragraphBreak_start {text : Text} {i j : Nat}
    (h : Matches text (paragraphBreak u) i j) : text[i]? = some '\n' := by
  cases h with
  | seq hr hs =>
    cases hr with
    | cls hc hp =>
      rw [hc, of_decide_eq_true hp]

theorem sentenceEnd_start {text : Text} {i j : Nat} (h : Matches text (sentenceEnd u) i j) :
    ∃ k c, i = k + 1 ∧ text[k]? = some c ∧ ['.', '!', '?'].contains c = true := by
  cases h with
  | seq hr hs =>
    cases hr with
    | look hp =>
      cases i with
      | zero => simp [prev] at hp
      | succ k =>
        obtain ⟨c, hc, hend⟩ := (Option.any_eq_true _ _).mp hp
        exact ⟨k, c, rfl, hc, hend⟩

theorem boundaryParts_notice {text : Text} (hn : figureNotice <+: text) :
    ∃ part ∈ boundaryParts u text, figureNotice <:+: part := by
  unfold boundaryParts
  split
  · apply partsAt_notice hn
    intro i j h
    by_contra hlt
    exact (getElem?_notice hn (Nat.lt_of_not_le hlt) (paragraphBreak_start h)).1 rfl
  · apply partsAt_notice hn
    intro i j h
    obtain ⟨k, c, rfl, hc, hend⟩ := sentenceEnd_start h
    by_contra hlt
    have := (getElem?_notice hn (by omega) hc).2
    rw [hend] at this
    cases this

end Boundaries

section Whole

variable (b : SizeBudget)

/-- The parts go into one buffer: none is over the maximum, and the buffer reaches its target
with the last. -/
def Joins : List Text → Text → Prop
  | [], _ => True
  | part :: parts, buffer => b.measure part ≤ b.maximum ∧
      (buffer = [] ∨ b.measure (buffer ++ "\n\n".toList ++ part) ≤ b.target) ∧
      Joins parts (if buffer = [] then part else buffer ++ "\n\n".toList ++ part)

/-- The text is one passage: it fits, or its parts join again. -/
def KeptWhole (u : Tables) (text : Text) : Prop :=
  b.fits (trim u text) = true ∨
    1 < (boundaryParts u (trim u text)).length ∧ Joins b (boundaryParts u (trim u text)) []

variable {b}

theorem pack_joins {parts : List Text} {buffer : Text} (hne : buffer ≠ [] ∨ parts ≠ [])
    (hparts : ∀ part ∈ parts, part ≠ []) (h : Joins b parts buffer) :
    ∃ piece, pack u b parts buffer = [piece] ∧ buffer <:+: piece ∧ ∀ part ∈ parts, part <:+: piece := by
  induction parts generalizing buffer with
  | nil =>
    have hb : buffer ≠ [] := by simpa using hne
    exact ⟨buffer, by rw [pack_nil, if_neg hb], List.infix_refl _, by simp⟩
  | cons part parts ih =>
    obtain ⟨hmax, htarget, hrest⟩ := h
    have hover : ¬ b.maximum < b.measure part := by omega
    have hjoin : ¬ (buffer ≠ [] ∧ b.target < b.measure (buffer ++ "\n\n".toList ++ part)) := by
      rintro ⟨hb, hlt⟩
      have := htarget.resolve_left hb
      omega
    have hpart : part ≠ [] := hparts part (by simp)
    rw [pack_join hover hjoin]
    by_cases hb : buffer = []
    · simp only [hb, if_true] at hrest ⊢
      obtain ⟨piece, hpiece, hin, hall⟩ := ih (.inl hpart) (fun p hp => hparts p (by simp [hp])) hrest
      exact ⟨piece, hpiece, List.nil_infix, List.forall_mem_cons.mpr ⟨hin, hall⟩⟩
    · simp only [hb, if_false] at hrest ⊢
      have hbuf : buffer ++ "\n\n".toList ++ part ≠ [] := by simp
      obtain ⟨piece, hpiece, hin, hall⟩ := ih (.inl hbuf) (fun p hp => hparts p (by simp [hp])) hrest
      refine ⟨piece, hpiece, ?_, List.forall_mem_cons.mpr ⟨?_, hall⟩⟩
      · rw [List.append_assoc] at hin
        exact (List.prefix_append _ _).isInfix.trans hin
      · exact (List.suffix_append _ _).isInfix.trans hin

theorem splitToSize_ne_nil {text : Text} (h : letters u text ≠ []) : splitToSize u b text ≠ [] := by
  intro hnil
  apply h
  rw [← splitToSize_letters (b := b), hnil, List.flatMap_nil]

theorem pack_ne_nil {parts : List Text} {buffer : Text} (hne : buffer ≠ [] ∨ parts ≠ [])
    (hparts : ∀ part ∈ parts, letters u part ≠ []) : pack u b parts buffer ≠ [] := by
  induction parts generalizing buffer with
  | nil =>
    have hb : buffer ≠ [] := by simpa using hne
    simp [pack_nil, hb]
  | cons part parts ih =>
    have hpart := hparts part (by simp)
    by_cases hover : b.maximum < b.measure part
    · rw [pack_over hover]
      simp [splitToSize_ne_nil hpart]
    by_cases hflush : buffer ≠ [] ∧ b.target < b.measure (buffer ++ "\n\n".toList ++ part)
    · simp [pack_flush hover hflush]
    rw [pack_join hover hflush]
    apply ih (.inl _) (fun p hp => hparts p (by simp [hp]))
    split
    · rintro rfl
      simp at hpart
    · simp

/-- Where the parts come out as one piece, they were joined. -/
theorem joins_of_pack {parts : List Text} {buffer : Text} (hne : buffer ≠ [] ∨ 2 ≤ parts.length)
    (hparts : ∀ part ∈ parts, letters u part ≠ []) (h : (pack u b parts buffer).length = 1) :
    Joins b parts buffer := by
  induction parts generalizing buffer with
  | nil => trivial
  | cons part parts ih =>
    have hpart := hparts part (by simp)
    have hrest : ∀ p ∈ parts, letters u p ≠ [] := fun p hp => hparts p (by simp [hp])
    have hpne : part ≠ [] := by
      rintro rfl
      simp at hpart
    by_cases hover : b.maximum < b.measure part
    · exfalso
      rw [pack_over hover, List.length_append, List.length_append] at h
      have hpos := List.length_pos_of_ne_nil (splitToSize_ne_nil (b := b) hpart)
      rcases hne with hb | hlen
      · simp only [hb, if_false, List.length_singleton] at h
        omega
      · have hmore : parts ≠ [] := by
          rintro rfl
          simp at hlen
        have hnone : pack u b parts [] ≠ [] := pack_ne_nil (.inr hmore) hrest
        have := List.length_pos_of_ne_nil hnone
        omega
    by_cases hflush : buffer ≠ [] ∧ b.target < b.measure (buffer ++ "\n\n".toList ++ part)
    · exfalso
      rw [pack_flush hover hflush, List.length_cons] at h
      have := List.length_pos_of_ne_nil (pack_ne_nil (b := b) (.inl hpne) hrest)
      omega
    rw [pack_join hover hflush] at h
    refine ⟨Nat.le_of_not_lt hover, ?_, ih (.inl ?_) hrest h⟩
    · by_cases hb : buffer = []
      · exact .inl hb
      · exact .inr (Nat.le_of_not_lt fun hlt => hflush ⟨hb, hlt⟩)
    · split
      · exact hpne
      · simp

/-- The width that fits on average is less than a text that does not fit. -/
theorem wrapWidth_lt {text : Text} (hlen : 1 < text.length) (hover : b.maximum < b.measure text) :
    wrapWidth b text < text.length := by
  have hl : (0 : ℚ) < text.length := by
    have := Nat.zero_lt_of_lt hlen
    exact_mod_cast this
  have hm : (0 : ℚ) < b.measure text := by exact_mod_cast Nat.zero_lt_of_lt hover
  have hx : (0 : ℚ) ≤ b.maximum := Nat.cast_nonneg _
  have hxm : (b.maximum : ℚ) / b.measure text ≤ 1 := by
    rw [div_le_one hm]
    exact_mod_cast hover.le
  have hratio := Binary64.float_nonneg (div_pos hl hm).le
  have hmax := Binary64.float_nonneg hx
  have htenths : (0 : ℚ) ≤ Binary64.float (9 / 10) := Binary64.float_nonneg (by norm_num)
  have hprod := Binary64.float_nonneg (mul_nonneg hmax hratio)
  have hlt : Binary64.float (Binary64.float (Binary64.float b.maximum *
      Binary64.float (text.length / b.measure text)) * Binary64.float (9 / 10)) < text.length := by
    calc Binary64.float (Binary64.float (Binary64.float b.maximum *
          Binary64.float (text.length / b.measure text)) * Binary64.float (9 / 10))
        ≤ Binary64.float (Binary64.float b.maximum *
            Binary64.float (text.length / b.measure text)) * Binary64.float (9 / 10) *
              (1 + 1 / 2 ^ 53) := Binary64.float_le (mul_nonneg hprod htenths)
      _ ≤ (Binary64.float b.maximum * Binary64.float (text.length / b.measure text) *
            (1 + 1 / 2 ^ 53)) * (9 / 10 * (1 + 1 / 2 ^ 53)) * (1 + 1 / 2 ^ 53) := by
          gcongr
          · exact Binary64.float_le (mul_nonneg hmax hratio)
          · exact Binary64.float_le (by norm_num)
      _ ≤ ((b.maximum * (1 + 1 / 2 ^ 53)) * (text.length / b.measure text * (1 + 1 / 2 ^ 53)) *
            (1 + 1 / 2 ^ 53)) * (9 / 10 * (1 + 1 / 2 ^ 53)) * (1 + 1 / 2 ^ 53) := by
          gcongr
          · exact Binary64.float_le hx
          · exact Binary64.float_le (div_pos hl hm).le
      _ = (b.maximum / b.measure text) * (text.length * (9 / 10 * (1 + 1 / 2 ^ 53) ^ 5)) := by ring
      _ ≤ 1 * (text.length * (9 / 10 * (1 + 1 / 2 ^ 53) ^ 5)) := by gcongr
      _ < text.length := by
          have hsmall : (9 / 10 * (1 + 1 / 2 ^ 53) ^ 5 : ℚ) < 1 := by norm_num
          rw [one_mul]
          exact mul_lt_of_lt_one_right hl hsmall
  have hfloor := (Nat.floor_lt (Binary64.float_nonneg (mul_nonneg hprod htenths))).mpr hlt
  rw [wrapWidth]
  exact max_lt hlen hfloor

theorem slices_cons {width : Nat} (hw : 0 < width) {text : Text} (hlt : width < text.length) :
    slices width text = text.take width :: slices width (text.drop width) := by
  have hcount : (text.length + width - 1) / width =
      ((text.drop width).length + width - 1) / width + 1 := by
    have h : text.length + width - 1 = (text.drop width).length + width - 1 + width := by
      rw [List.length_drop]
      omega
    rw [h, Nat.add_div_right _ hw]
  rw [slices, hcount, List.range_succ_eq_map, List.map_cons, List.map_map, slices]
  simp only [Nat.zero_mul, List.drop_zero, List.drop_drop, Function.comp_def, Nat.succ_mul,
    Nat.add_comm]

/-- A text over the maximum is wrapped in two pieces at least. -/
theorem one_lt_hardWrap {text : Text} (hs : Solid u text) (hlen : 1 < text.length)
    (hover : b.maximum < b.measure text) : 1 < (hardWrap u b text).length := by
  have hw := wrapWidth_pos (b := b) text
  have hlt := wrapWidth_lt hlen hover
  have hpos : b.measure text ≠ 0 := by omega
  have hfirst : trim u (text.take (wrapWidth b text)) ≠ [] := by
    obtain ⟨c, rest, hc⟩ := List.exists_cons_of_ne_nil hs.1
    have hmem : c ∈ text.take (wrapWidth b text) := by
      generalize wrapWidth b text = width at hw
      rw [hc, List.take_cons hw]
      simp
    rw [ne_eq, trim_eq_nil_iff, letters_eq_nil_iff]
    intro hblank
    have hspace := hblank c hmem
    rw [hs.head hc] at hspace
    cases hspace
  have hrest : ((slices (wrapWidth b text) (text.drop (wrapWidth b text))).map (trim u)).filter
      (· ≠ []) ≠ [] := by
    intro hnil
    have hletters := letters_parts (u := u) (slices (wrapWidth b text)
      (text.drop (wrapWidth b text)))
    rw [hnil, List.flatMap_nil, letters_flatMap, slices_flatten hw] at hletters
    obtain ⟨front, c, hc⟩ := (List.eq_nil_or_concat text).resolve_left hs.1
    have hmem : c ∈ text.drop (wrapWidth b text) := by
      rw [hc, List.concat_eq_append, List.drop_append_of_le_length]
      · simp
      · rw [hc, List.concat_eq_append, List.length_append, List.length_singleton] at hlt
        omega
    have hspace := letters_eq_nil_iff.mp hletters.symm c hmem
    rw [List.concat_eq_append] at hc
    rw [hs.last hc] at hspace
    cases hspace
  have hpieces := List.length_pos_of_ne_nil hrest
  rw [hardWrap, if_neg hpos, slices_cons hw hlt, List.map_cons,
    List.filter_cons_of_pos (by simpa using hfirst), List.length_cons]
  exact Nat.succ_lt_succ hpieces

theorem trim_solid {text : Text} (h : trim u text ≠ []) : Solid u (trim u text) := ⟨h, trim_trim text⟩

/-- A text that is one passage is kept whole. -/
theorem keptWhole_of_single {text : Text} (hlen : 1 < (trim u text).length)
    (h : (splitToSize u b text).length = 1) : KeptWhole b u text := by
  have hne : trim u text ≠ [] := by
    intro hnil
    rw [hnil] at hlen
    cases hlen
  by_cases hf : b.fits (trim u text) = true
  · exact .inl hf
  by_cases hp : 1 < (boundaryParts u (trim u text)).length
  · rw [splitToSize_pack hne hf hp] at h
    exact .inr ⟨hp, joins_of_pack (.inr hp) (fun _ hpart => mem_boundaryParts hpart) h⟩
  · rw [splitToSize_wrap hne hf hp] at h
    have := one_lt_hardWrap (trim_solid hne) hlen (over_of_not_fits hf)
    omega

/-- Kept whole, a text that begins with the notice is one passage with the notice in it. -/
theorem keptWhole_notice {text : Text} (hn : figureNotice <+: trim u text)
    (h : KeptWhole b u text) :
    ∃ piece, splitToSize u b text = [piece] ∧ figureNotice <:+: piece := by
  have hne : trim u text ≠ [] := by
    intro hnil
    rw [hnil, List.prefix_nil] at hn
    exact (figureNotice_solid (u := u)).1 hn
  by_cases hf : b.fits (trim u text) = true
  · exact ⟨_, splitToSize_fits hne hf, hn.isInfix⟩
  obtain ⟨hp, hjoins⟩ := h.resolve_left hf
  have hparts : ∀ part ∈ boundaryParts u (trim u text), part ≠ [] := by
    rintro part hpart rfl
    exact mem_boundaryParts hpart rfl
  have hsome : boundaryParts u (trim u text) ≠ [] := List.ne_nil_of_length_pos (by omega)
  obtain ⟨piece, hpiece, -, hall⟩ : ∃ piece,
      pack u b (boundaryParts u (trim u text)) [] = [piece] ∧ [] <:+: piece ∧
        ∀ part ∈ boundaryParts u (trim u text), part <:+: piece :=
    pack_joins (.inr hsome) hparts hjoins
  obtain ⟨part, hpart, hin⟩ := boundaryParts_notice hn
  exact ⟨piece, by rw [splitToSize_pack hne hf hp, hpiece], hin.trans (hall part hpart)⟩

end Whole

section Passages

def figureLabel (figure : ExtractedFigure) : Text :=
  match truthy figure.caption with
  | none => figureNotice
  | some caption => figureNotice ++ " ".toList ++ caption

/-- The words of a figure that the chunker does not write. -/
def ownWords (figure : ExtractedFigure) : Text :=
  (truthy figure.caption).getD [] ++ figure.text

variable (u) (b : SizeBudget) (result : NormalizationResult)

/-- The piece has some of the figure's text: up to its end there is more than the label. -/
def TextIn (figure : ExtractedFigure) (piece : Text) : Prop :=
  ∃ before after, splitToSize u b (figureBody figure) = before ++ piece :: after ∧
    (letters u (figureLabel figure)).length < ((before ++ [piece]).flatMap (letters u)).length

/-- Passages with a table or with text read from a picture have its notice. -/
def SaysSo : Prop :=
  ∀ c ∈ chunk u b result,
    (∀ t rows title, c.origin = .table t → t.rows = withOcrNotice u rows title →
      tableNotice <:+: c.text) ∧
    ∀ f, c.origin = .figure f → TextIn u b f c.text → figureNotice <:+: c.text

/-- A figure of a unit with text to it. -/
def Worded (f : ExtractedFigure) : Prop :=
  (∃ unit ∈ result.units, f ∈ figuresOf result unit) ∧ letters u f.text ≠ []

variable {u b result} {f : ExtractedFigure}

theorem figureBody_eq (hne : f.text ≠ []) :
    figureBody f = figureLabel f ++ "\n".toList ++ f.text := by
  simp only [figureBody, if_neg hne]
  rfl

theorem notice_label : figureNotice <+: figureLabel f := by
  unfold figureLabel
  split
  · exact List.prefix_refl _
  · rw [List.append_assoc]
    exact List.prefix_append _ _

theorem notice_body : figureNotice <+: trim u (figureBody f) := by
  have hpre : figureNotice <+: figureBody f := by
    by_cases hne : f.text = []
    · have hbody : figureBody f = figureLabel f := by
        simp only [figureBody, if_pos hne]
        rfl
      rw [hbody]
      exact notice_label
    · rw [figureBody_eq hne, List.append_assoc]
      exact notice_label.trans (List.prefix_append _ _)
  have hzero : leadOf u (figureBody f) = 0 :=
    Nat.le_zero.mp (figureNotice_solid.lead_le (q := 0) hpre)
  have hstart : figureNotice <+: (figureBody f).drop (leadOf u (figureBody f) + 0) := by
    rwa [hzero]
  exact (figureNotice_solid.occurs_trim 0).mp hstart

theorem letters_label : letters u (figureLabel f) =
    letters u figureNotice ++ letters u ((truthy f.caption).getD []) := by
  unfold figureLabel
  cases truthy f.caption with
  | none => simp
  | some caption =>
    have hblank : letters u " ".toList = [] := by simp [letters, u.isSpace_blank]
    rw [letters_append, letters_append, hblank, List.append_nil, Option.getD_some]

theorem letters_body (hne : f.text ≠ []) : letters u (figureBody f) =
    letters u (figureLabel f) ++ letters u f.text := by
  have hnew : letters u "\n".toList = [] := by simp [letters, u.isSpace_newline]
  rw [figureBody_eq hne, letters_append, letters_append, hnew, List.append_nil]

/-- A word whose first letter is nowhere else in it is found past itself in what follows it. -/
theorem infix_past {α : Type*} {a : α} {n r i x : List α} (h : i ++ x = a :: n ++ r) (hi : i ≠ [])
    (ha : a ∉ n) (hx : a :: n <:+: x) : a :: n <:+: r := by
  obtain ⟨p, q, rfl⟩ := hx
  obtain ⟨c, i, rfl⟩ := List.exists_cons_of_ne_nil hi
  have htail : (i ++ p) ++ (a :: n ++ q) = n ++ r := by
    have := (List.cons.inj h).2
    simpa using this
  rcases List.append_eq_append_iff.mp htail with ⟨t, hn, hr⟩ | ⟨t, hn, hr⟩
  · cases t with
    | nil =>
      rw [List.nil_append] at hr
      exact hr ▸ (List.prefix_append _ _).isInfix
    | cons d t =>
      have hd : a = d := (List.cons.inj hr).1
      exact absurd (by simp [hn, hd]) ha
  · rw [hr]
    exact ⟨t, q, by simp⟩

theorem letters_notice : ∃ n, letters u figureNotice = '[' :: n ∧ '[' ∉ n := by
  have hhead : figureNotice = '[' :: "Figure] (text read from a picture by OCR)".toList := by
    decide
  have hspace : u.isSpace '[' = false := u.isSpace_graphic _ (by decide) (by decide)
  have hnot : '[' ∉ "Figure] (text read from a picture by OCR)".toList := by decide
  refine ⟨letters u "Figure] (text read from a picture by OCR)".toList, ?_, ?_⟩
  · rw [hhead, letters, List.filter_cons, hspace]
    rfl
  · exact fun h => hnot (List.mem_filter.mp h).1

/-- Figures kept whole say so, and tables always do. -/
theorem saysSo_of_keptWhole (h : ∀ f, Worded u result f → KeptWhole b u (figureBody f)) :
    SaysSo u b result := by
  intro c hc
  obtain ⟨place, unit, hplace, hcut⟩ := mem_chunk hc
  have hunit := List.mem_of_getElem? hplace
  rcases hcut with ⟨sec, -, ho, -⟩ | ⟨t, -, ho, ht⟩ | ⟨f, hf, ho, ht⟩
  · simp [ho]
  · refine ⟨fun t' rows title ho' hrows => ?_, by simp [ho]⟩
    obtain rfl : t = t' := by simpa [ho] using ho'
    exact renderTable_notice b hrows _ ht
  · refine ⟨by simp [ho], fun f' ho' htext => ?_⟩
    obtain rfl : f = f' := by simpa [ho] using ho'
    obtain ⟨before, after, hpieces, hlong⟩ := htext
    have hworded : letters u f.text ≠ [] := by
      intro hnil
      have hall := splitToSize_letters (u := u) (b := b) (figureBody f)
      have hbody : letters u (figureBody f) = letters u (figureLabel f) := by
        by_cases hne : f.text = []
        · simp only [figureBody, if_pos hne]
          rfl
        · rw [letters_body hne, hnil, List.append_nil]
      rw [hpieces, hbody] at hall
      have hle : ((before ++ [c.text]).flatMap (letters u)).length ≤
          (letters u (figureLabel f)).length := by
        rw [← hall]
        simp
      omega
    obtain ⟨piece, hpiece, hin⟩ := keptWhole_notice notice_body (h f ⟨⟨unit, hunit, hf⟩, hworded⟩)
    rw [hpiece, List.mem_singleton] at ht
    rwa [ht]

/-- A figure that is cut has a last piece without the notice, unless its own words spell it. -/
theorem keptWhole_of_saysSo (hown : ¬ letters u figureNotice <:+: letters u (ownWords f))
    (hf : Worded u result f) (h : SaysSo u b result) : KeptWhole b u (figureBody f) := by
  obtain ⟨⟨unit, hunit, hfig⟩, hwords⟩ := hf
  have hne : f.text ≠ [] := by
    intro hnil
    rw [hnil] at hwords
    exact hwords rfl
  have hlen : 1 < (trim u (figureBody f)).length := by
    have hshort : 1 < figureNotice.length := by decide
    exact Nat.lt_of_lt_of_le hshort notice_body.length_le
  by_contra hcut
  have hall := splitToSize_letters (u := u) (b := b) (figureBody f)
  have hletters : letters u (figureBody f) ≠ [] := by simp [letters_body hne, hwords]
  have hpos := List.length_pos_of_ne_nil (splitToSize_ne_nil (b := b) hletters)
  have hmany : (splitToSize u b (figureBody f)).length ≠ 1 := fun hone =>
    hcut (keptWhole_of_single hlen hone)
  obtain ⟨init, last, hpieces⟩ := (List.eq_nil_or_concat (splitToSize u b (figureBody f))).resolve_left
    (List.ne_nil_of_length_pos hpos)
  rw [List.concat_eq_append] at hpieces
  have hlast : last ∈ splitToSize u b (figureBody f) := by simp [hpieces]
  obtain ⟨place, hplace⟩ := List.getElem?_of_mem hunit
  obtain ⟨c, hc, ho, htext, -⟩ := chunk_of_figure hplace hfig hlast
  have hin : TextIn u b f c.text := by
    refine ⟨init, [], by rw [hpieces, htext], ?_⟩
    rw [htext, ← hpieces, hall, letters_body hne, List.length_append]
    have := List.length_pos_of_ne_nil hwords
    omega
  have hnotice : letters u figureNotice <:+: letters u last := by
    rw [← htext]
    exact ((h c hc).2 f ho hin).filter _
  obtain ⟨first, init, rfl⟩ : ∃ first rest, init = first :: rest := by
    apply List.exists_cons_of_ne_nil
    rintro rfl
    simp [hpieces] at hmany
  have hfirst : letters u first ≠ [] := by
    have hmem : first ∈ splitToSize u b (figureBody f) := by simp [hpieces]
    exact splitToSize_ne_blank first hmem
  obtain ⟨n, hn, hnot⟩ := letters_notice (u := u)
  rw [hn] at hnotice hown
  apply hown
  apply infix_past _ _ hnot hnotice
  · exact (first :: init).flatMap (letters u)
  · rw [ownWords, letters_append, ← hn, ← List.append_assoc, ← letters_label, ← letters_body hne,
      ← hall, hpieces, List.flatMap_append]
    simp
  · simp [hfirst]

/-- What the pictures said says so in every passage if each figure is kept whole, and only then
if no picture's own words spell the notice. -/
theorem pictures_say_so_iff (s : NormalizationService) (b : SizeBudget) (documentId : Nat)
    (mimeType : String) (content : ExtractedContent) (pictures : List PictureText) :
    let result := s.normalize (extractionResult documentId mimeType
      (mergePictures s.tables content pictures))
    ((∀ f, Worded s.tables result f → KeptWhole b s.tables (figureBody f)) →
      SaysSo s.tables b result) ∧
    ((∀ f, Worded s.tables result f →
        ¬ letters s.tables figureNotice <:+: letters s.tables (ownWords f)) →
      SaysSo s.tables b result →
        ∀ f, Worded s.tables result f → KeptWhole b s.tables (figureBody f)) := by
  intro result
  refine ⟨saysSo_of_keptWhole, fun hown h f hf => ?_⟩
  exact keptWhole_of_saysSo (hown f hf) hf h

/-- A picture with two readings on it. -/
def twoLoads : PictureText :=
  { unitIndex := 1, text := "The load is 341 MW. The load is 342 MW.".toList, caption := none,
    heading := none, tables := [] }

def oneSlide : ExtractedContent :=
  { units := [{ index := 1, label := "Slide 1".toList, text := "Monthly load".toList }],
    headings := [], tables := [] }

/-- The second reading is a passage of its own, and nothing in it says where it comes from. -/
theorem second_load_unmarked :
    ¬ SaysSo asciiTables (characterBudget {} (some 70) (some 70))
      (asciiService.normalize (extractionResult 1 pptxMime
        (mergePictures asciiTables oneSlide [twoLoads]))) := by
  intro h
  have hmem : ∃ c ∈ chunk asciiTables (characterBudget {} (some 70) (some 70))
      (asciiService.normalize (extractionResult 1 pptxMime
        (mergePictures asciiTables oneSlide [twoLoads]))),
      c.text = "The load is 342 MW.".toList ∧
      c.origin = .figure { unitIndex := 1, text := twoLoads.text } := by decide +kernel
  obtain ⟨c, hc, htext, ho⟩ := hmem
  have hin := (h c hc).2 _ ho ⟨["[Figure] (text read from a picture by OCR)\nThe load is 341 MW.".toList], [],
    by rw [htext]; decide +kernel, by rw [htext]; decide +kernel⟩
  rw [htext] at hin
  revert hin
  decide +kernel

end Passages

end Chunker

end KnowledgeBase.Artifact
