import KnowledgeBase.ProseKept

/-! Under which heading a passage is cited. The chunker cuts a unit where the words of its headings
are first found, one after the other; the heading lines say where it should have cut. -/

namespace KnowledgeBase.Artifact

variable (u : Tables)

/-- Not blank, and nothing to trim. -/
def Solid (text : Text) : Prop := text ≠ [] ∧ trim u text = text

section Solid

variable {u} {text needle : Text}

theorem Solid.head (h : Solid u needle) {c : Char} {rest : Text} (hc : needle = c :: rest) :
    u.isSpace c = false := by
  by_contra hs
  rw [Bool.not_eq_false] at hs
  have hlen : (trim u needle).length ≤ rest.length := by
    have h1 := (List.dropWhile_sublist u.isSpace (l := rest)).length_le
    have h2 := (List.dropWhile_sublist u.isSpace
      (l := (rest.dropWhile u.isSpace).reverse)).length_le
    simp only [trim, strip, hc, List.dropWhile_cons, hs, if_true, List.length_reverse] at h2 ⊢
    omega
  rw [h.2, hc, List.length_cons] at hlen
  omega

theorem Solid.last (h : Solid u needle) {c : Char} {front : Text} (hc : needle = front ++ [c]) :
    u.isSpace c = false := by
  have hrev : (((needle.dropWhile u.isSpace).reverse.dropWhile u.isSpace)) = c :: front.reverse := by
    rw [← List.reverse_reverse ((needle.dropWhile u.isSpace).reverse.dropWhile u.isSpace)]
    change (trim u needle).reverse = _
    rw [h.2, hc, List.reverse_append]
    rfl
  have hne : (needle.dropWhile u.isSpace).reverse.dropWhile u.isSpace ≠ [] := by simp [hrev]
  have hhead := List.head_dropWhile_not u.isSpace hne
  simpa [hrev] using hhead

theorem trim_trim (text : Text) : trim u (trim u text) = trim u text := by
  have hpre : trim u text <+: text.dropWhile u.isSpace := by
    have hsuf := List.dropWhile_suffix u.isSpace (l := (text.dropWhile u.isSpace).reverse)
    rw [← List.reverse_prefix, List.reverse_reverse] at hsuf
    exact hsuf
  have hfront : (trim u text).dropWhile u.isSpace = trim u text := by
    cases htrim : trim u text with
    | nil => rfl
    | cons c rest =>
      obtain ⟨after, hafter⟩ := hpre
      have hne : text.dropWhile u.isSpace ≠ [] := by simp [← hafter, htrim]
      have hhead := List.head_dropWhile_not u.isSpace hne
      simp only [← hafter, htrim, List.cons_append, List.head_cons] at hhead
      rw [List.dropWhile_cons, hhead]
      rfl
  conv_lhs => rw [trim, strip, hfront, trim, strip, List.reverse_reverse, List.dropWhile_idempotent]
  rfl

/-- What normalization leaves of the headings is solid. -/
theorem normalize_solid (s : NormalizationService) (extraction : ExtractionResult) :
    ∀ heading ∈ (s.normalize extraction).headings, Solid s.tables heading.text := by
  intro heading hmem
  obtain ⟨hmem, hne⟩ := List.mem_filter.mp hmem
  obtain ⟨raw, -, rfl⟩ := List.mem_map.mp hmem
  refine ⟨by simpa using hne, ?_⟩
  simp only [NormalizationService.clean, TextCleaner.clean]
  split
  · rfl
  · exact trim_trim _

/-- How many letters a text has from a position on. -/
def lettersFrom (u : Tables) (text : Text) (pos : Nat) : Nat := (letters u (text.drop pos)).length

theorem lettersFrom_anti {p q : Nat} (h : p ≤ q) : lettersFrom u text q ≤ lettersFrom u text p := by
  have hq : q = p + (q - p) := by omega
  rw [lettersFrom, lettersFrom, hq, ← List.drop_drop]
  exact ((List.drop_sublist _ _).filter _).length_le

theorem lt_of_lettersFrom_lt {p q : Nat} (h : lettersFrom u text p < lettersFrom u text q) :
    q < p := by
  by_contra hle
  have hanti : lettersFrom u text q ≤ lettersFrom u text p := lettersFrom_anti (Nat.le_of_not_lt hle)
  omega

/-- An occurrence has its letters before what follows it. -/
theorem lettersFrom_occurs {p q : Nat} (h : needle <+: text.drop p) (hq : p + needle.length ≤ q) :
    (letters u needle).length + lettersFrom u text q ≤ lettersFrom u text p := by
  obtain ⟨rest, hrest⟩ := h
  have hdrop : text.drop (p + needle.length) = rest := by
    rw [← List.drop_drop, ← hrest, List.drop_left]
  have hanti : lettersFrom u text q ≤ (letters u rest).length := by
    rw [← hdrop]
    exact lettersFrom_anti hq
  have hsum : lettersFrom u text p = (letters u needle).length + (letters u rest).length := by
    rw [lettersFrom, ← hrest, letters_append, List.length_append]
  omega

theorem Solid.lettersFrom_lt (h : Solid u needle) {p q : Nat} (hocc : needle <+: text.drop q)
    (hlt : q < p) : lettersFrom u text p < lettersFrom u text q := by
  obtain ⟨c, rest, hc⟩ := List.exists_cons_of_ne_nil h.1
  have hone : [c] <+: text.drop q := by
    rw [hc] at hocc
    exact (List.prefix_append [c] rest).trans hocc
  have := lettersFrom_occurs (u := u) hone (q := p) (by simpa using hlt)
  simp only [letters, List.filter_cons, h.head hc, Bool.not_false, if_true, List.filter_nil,
    List.length_singleton] at this
  omega

/-- Where the text without its outer white space begins. -/
def leadOf (u : Tables) (text : Text) : Nat := (text.takeWhile u.isSpace).length

theorem text_eq (text : Text) : ∃ tail, text = text.takeWhile u.isSpace ++ (trim u text ++ tail) ∧
    ∀ c ∈ tail, u.isSpace c = true := by
  refine ⟨((text.dropWhile u.isSpace).reverse.takeWhile u.isSpace).reverse, ?_, ?_⟩
  · rw [trim, strip, ← List.reverse_append, List.takeWhile_append_dropWhile, List.reverse_reverse,
      List.takeWhile_append_dropWhile]
  · intro c hc
    exact List.mem_takeWhile_imp (List.mem_reverse.mp hc)

theorem drop_leadOf {rest : Text} (h : text = text.takeWhile u.isSpace ++ rest) :
    text.drop (leadOf u text) = rest := by
  calc text.drop (leadOf u text)
      = (text.takeWhile u.isSpace ++ rest).drop (leadOf u text) := by rw [← h]
    _ = rest := List.drop_left

theorem Solid.lead_le (h : Solid u needle) {q : Nat} (hocc : needle <+: text.drop q) :
    leadOf u text ≤ q := by
  by_contra hlt
  obtain ⟨c, rest, hc⟩ := List.exists_cons_of_ne_nil h.1
  obtain ⟨after, hafter⟩ := hocc
  have hget : text[q]? = some c := by
    rw [← List.head?_drop, ← hafter, hc]
    rfl
  have htake : (text.takeWhile u.isSpace)[q]? = some c := by
    have hq : q < (text.takeWhile u.isSpace).length := Nat.lt_of_not_le hlt
    rw [← hget]
    conv_rhs => rw [← List.takeWhile_append_dropWhile (p := u.isSpace) (l := text)]
    rw [List.getElem?_append_left hq]
  have hspace := List.mem_takeWhile_imp (List.mem_of_getElem? htake)
  rw [h.head hc] at hspace
  cases hspace

/-- Trimming the text moves what is found in it by the white space in front. -/
theorem Solid.occurs_trim (h : Solid u needle) (q : Nat) :
    needle <+: text.drop (leadOf u text + q) ↔ needle <+: (trim u text).drop q := by
  obtain ⟨tail, htext, htail⟩ := text_eq (u := u) text
  have hlead := drop_leadOf htext
  rw [← List.drop_drop, hlead, List.drop_append]
  constructor
  · intro hocc
    by_cases hlen : needle.length ≤ ((trim u text).drop q).length
    · exact List.prefix_of_prefix_length_le hocc (List.prefix_append _ _) hlen
    · -- the last letter of the needle would be in the white space behind the text
      exfalso
      have hpre : (trim u text).drop q <+: needle :=
        List.prefix_of_prefix_length_le (List.prefix_append _ _) hocc (by omega)
      obtain ⟨w, rfl⟩ := hpre
      have hw : w <+: tail.drop (q - (trim u text).length) := by
        rwa [List.prefix_append_right_inj] at hocc
      rcases List.eq_nil_or_concat' w with rfl | ⟨front, c, rfl⟩
      · simp at hlen
      · have hc : c ∈ tail := List.mem_of_mem_drop (hw.subset (by simp))
        have hnot := h.last (List.append_assoc _ front [c]).symm
        rw [htail c hc] at hnot
        cases hnot
  · exact fun hocc => hocc.trans (List.prefix_append _ _)

end Solid

/-- A complete line of the text, from its start on. -/
structure LineAt (text line : Text) (pos : Nat) : Prop where
  unbroken : '\n' ∉ line
  occurs : line <+: text.drop pos
  starts : pos = 0 ∨ text[pos - 1]? = some '\n'
  ends : (text.drop (pos + line.length)).head?.all (· = '\n') = true

/-- The headings are lines of the text, each one once, in the order they are listed. -/
structure HeadingLines (text : Text) (headings : List Heading) (lines : List (Nat × Heading)) :
    Prop where
  listed : lines.map Prod.snd = headings
  solid : ∀ l ∈ lines, Solid u l.2.text
  atLine : ∀ l ∈ lines, LineAt text l.2.text l.1
  once : ∀ l ∈ lines, ∀ pos, LineAt text l.2.text pos → pos = l.1
  inOrder : lines.Pairwise fun a b => a.1 < b.1

/-- The heading of the last line at or before a position, else the one carried over. -/
def headingAt (lines : List (Nat × Heading)) (carried : Option Text) (pos : Nat) : Option Text :=
  match (lines.filter (·.1 ≤ pos)).getLast? with
  | none => carried
  | some l => some l.2.text

/-- The words of no heading occur between the line before its own line and that. -/
def Undisturbed (text : Text) : Nat → List (Nat × Heading) → Prop
  | _, [] => True
  | start, l :: lines =>
    (∀ q, start ≤ q → q < l.1 → ¬ l.2.text <+: text.drop q) ∧
      Undisturbed text (l.1 + l.2.text.length) lines

section Lines

variable {u} {text : Text} {headings : List Heading} {lines : List (Nat × Heading)}
  {carried : Option Text} {pos : Nat}

/-- A line ends before the next one begins. -/
theorem LineAt.lt {a b : Text} {p q : Nat} (ha : LineAt text a p) (hb : LineAt text b q)
    (h : p < q) : p + a.length < q := by
  have hnew := hb.starts.resolve_left (by omega)
  by_contra hle
  obtain ⟨rest, hrest⟩ := ha.occurs
  have hget : (text.drop p)[q - 1 - p]? = some '\n' := by
    rw [List.getElem?_drop, ← hnew]
    congr 1
    omega
  rw [← hrest, List.getElem?_append_left (by omega)] at hget
  exact ha.unbroken (List.mem_of_getElem? hget)

theorem HeadingLines.eq_of_text (h : HeadingLines u text headings lines) {a b : Nat × Heading}
    (ha : a ∈ lines) (hb : b ∈ lines) (hab : a.2.text = b.2.text) : a.1 = b.1 := by
  apply h.once b hb
  rw [← hab]
  exact h.atLine a ha

theorem HeadingLines.gap (h : HeadingLines u text headings lines) :
    lines.Pairwise fun a b => a.1 + a.2.text.length ≤ b.1 :=
  h.inOrder.imp_of_mem fun ha hb hlt => Nat.le_of_lt ((h.atLine _ ha).lt (h.atLine _ hb) hlt)

theorem headingAt_line (h : HeadingLines u text headings lines) {l : Nat × Heading}
    (hl : l ∈ lines) : headingAt lines carried l.1 = some l.2.text := by
  obtain ⟨before, after, rfl⟩ := List.append_of_mem hl
  have horder := List.pairwise_append.mp h.inOrder
  have hbefore : before.filter (fun a => decide (a.1 ≤ l.1)) = before := by
    apply List.filter_eq_self.mpr
    exact fun a ha => decide_eq_true (Nat.le_of_lt (horder.2.2 a ha l (by simp)))
  have hafter : after.filter (fun a => decide (a.1 ≤ l.1)) = [] := by
    apply List.filter_eq_nil_iff.mpr
    intro a ha
    have := (List.pairwise_cons.mp horder.2.1).1 a ha
    simpa using this
  have hlast : ((before ++ l :: after).filter (fun a => decide (a.1 ≤ l.1))).getLast? = some l := by
    rw [List.filter_append, hbefore, List.filter_cons, hafter]
    simp
  rw [headingAt, hlast]

/-- Before its line no heading is the right one. -/
theorem headingAt_before (h : HeadingLines u text headings lines) {l : Nat × Heading}
    (hl : l ∈ lines) (hpos : pos < l.1) (hcarried : carried ≠ some l.2.text) :
    headingAt lines carried pos ≠ some l.2.text := by
  rw [headingAt]
  split
  · exact hcarried
  · rename_i a ha
    obtain ⟨hmem, hle⟩ := List.mem_filter.mp (List.mem_of_getLast? ha)
    intro heq
    have := h.eq_of_text hmem hl (Option.some.inj heq)
    simp only [decide_eq_true_eq] at hle
    omega

theorem headingAt_none (h : ∀ l ∈ lines, pos < l.1) : headingAt lines carried pos = carried := by
  have hnil : lines.filter (fun a => decide (a.1 ≤ pos)) = [] := by
    apply List.filter_eq_nil_iff.mpr
    intro l hl
    simpa using h l hl
  rw [headingAt, hnil]
  rfl

end Lines

namespace Chunker

section Placed

variable {u} {text : Text} {lines cs : List (Nat × Heading)} {start : Nat}

/-- Each heading is first found at a cut, no later than its line. -/
inductive Placed (text : Text) : Nat → List (Nat × Heading) → List (Nat × Heading) → Prop
  | nil (start : Nat) : Placed text start [] []
  | cons {start p q : Nat} {heading : Heading} {lines cs : List (Nat × Heading)}
      (hle : start ≤ q) (hq : q ≤ p) (hocc : heading.text <+: text.drop q)
      (hfirst : ∀ i, start ≤ i → i < q → ¬ heading.text <+: text.drop i)
      (hrest : Placed text (q + heading.text.length) lines cs) :
      Placed text start ((p, heading) :: lines) ((q, heading) :: cs)

/-- The cuts in the text with its outer white space. -/
def shifted (u : Tables) (text : Text) (cs : List (Nat × Heading)) : List (Nat × Heading) :=
  cs.map fun c => (leadOf u text + c.1, c.2)

theorem findFrom_none {needle : Text} (h : findFrom needle text start = none) {q : Nat}
    (hq : start ≤ q) : ¬ needle <+: text.drop q ∨ needle = [] := by
  by_cases hlen : q < text.length + 1
  · left
    have := List.find?_eq_none.mp h q (List.mem_range'_1.mpr (by omega))
    rwa [List.isPrefixOf_iff_prefix] at this
  · by_cases hne : needle = []
    · exact .inr hne
    · left
      rw [List.drop_eq_nil_of_le (by omega)]
      exact fun hpre => hne (List.prefix_nil.mp hpre)

theorem cuts_placed (hsolid : ∀ l ∈ lines, Solid u l.2.text)
    (hocc : ∀ l ∈ lines, l.2.text <+: text.drop l.1)
    (hgap : lines.Pairwise fun a b => a.1 + a.2.text.length ≤ b.1)
    (hstart : ∀ l ∈ lines, leadOf u text + start ≤ l.1) :
    Placed text (leadOf u text + start) lines
      (shifted u text (cuts u (trim u text) start (lines.map Prod.snd))) := by
  induction lines generalizing start with
  | nil => exact .nil _
  | cons l lines ih =>
    obtain ⟨p, heading⟩ := l
    have hs : Solid u heading.text := hsolid (p, heading) (by simp)
    have hp : leadOf u text + start ≤ p := hstart (p, heading) (by simp)
    have hat : heading.text <+: (trim u text).drop (p - leadOf u text) := by
      rw [← hs.occurs_trim, Nat.add_sub_cancel' (by omega)]
      exact hocc (p, heading) (by simp)
    rw [List.map_cons, cuts, hs.2, if_neg hs.1]
    obtain ⟨hgap1, hgap⟩ := List.pairwise_cons.mp hgap
    cases hfind : findFrom heading.text (trim u text) start with
    | none =>
      rcases findFrom_none hfind (q := p - leadOf u text) (by omega) with hno | hnil
      · exact absurd hat hno
      · exact absurd hnil hs.1
    | some q =>
      obtain ⟨hq, hfound, hfirst⟩ := findFrom_some hfind
      have hqp : leadOf u text + q ≤ p := by
        by_contra hlt
        exact hfirst (p - leadOf u text) (by omega) (by omega) hat
      refine .cons (by omega) hqp ((hs.occurs_trim q).mpr hfound) ?_ ?_
      · intro i hi hlt hpre
        have hlead := hs.lead_le hpre
        refine hfirst (i - leadOf u text) (by omega) (by omega) ?_
        rwa [← hs.occurs_trim, Nat.add_sub_cancel' hlead]
      · rw [Nat.add_assoc]
        apply ih (fun l hl => hsolid l (by simp [hl])) (fun l hl => hocc l (by simp [hl])) hgap
        intro l hl
        have := hgap1 l hl
        simp only at this
        omega

/-- Where nothing disturbs the search, the cuts are the lines. -/
theorem Placed.eq_of_undisturbed (h : Placed text start lines cs)
    (hund : Undisturbed text start lines) : cs = lines := by
  induction h with
  | nil => rfl
  | @cons start p q heading lines cs hle hq hocc hfirst hrest ih =>
    have hqp : q = p := by
      by_contra hne
      exact hund.1 q hle (by simp only; omega) hocc
    subst hqp
    rw [ih hund.2]

end Placed

section Sections

variable {u} {text : Text} {lines cs : List (Nat × Heading)}

/-- Where the section of the first cut ends. -/
def stopOf (x : Text) : List (Nat × Heading) → Nat
  | [] => x.length
  | next :: _ => next.1

theorem cutSections_cons (x : Text) (lead q : Nat) (heading : Heading) (cs : List (Nat × Heading)) :
    cutSections u x lead ((q, heading) :: cs) =
      (if trim u (slice x q (stopOf x cs)) = [] then [] else
        [⟨some (trim u heading.text), trim u (slice x q (stopOf x cs)), lead + q⟩]) ++
        cutSections u x lead cs := by
  cases cs <;> rfl

theorem mem_cutSections {x : Text} {lead : Nat} {sec : Section} (h : sec ∈ cutSections u x lead cs) :
    ∃ c ∈ cs, sec.begins = lead + c.1 ∧ sec.heading = some (trim u c.2.text) ∧
      letters u sec.body ≠ [] := by
  induction cs with
  | nil => cases h
  | cons c cs ih =>
    obtain ⟨pos, heading⟩ := c
    rw [cutSections_cons, List.mem_append] at h
    rcases h with h | h
    · split at h
      · cases h
      · rename_i hne
        rw [List.mem_singleton.mp h]
        refine ⟨(pos, heading), by simp, rfl, rfl, ?_⟩
        rwa [letters_trim, ne_eq, ← trim_eq_nil_iff]
    · obtain ⟨c', hc', hrest⟩ := ih h
      exact ⟨c', by simp [hc'], hrest⟩

theorem lettersFrom_trim (q : Nat) :
    lettersFrom u text (leadOf u text + q) = (letters u ((trim u text).drop q)).length := by
  obtain ⟨tail, htext, htail⟩ := text_eq (u := u) text
  have hlead := drop_leadOf htext
  have hblank : letters u (tail.drop (q - (trim u text).length)) = [] :=
    letters_eq_nil_iff.mpr fun c hc => htail c (List.mem_of_mem_drop hc)
  rw [lettersFrom, ← List.drop_drop, hlead, List.drop_append, letters_append, hblank,
    List.append_nil]

theorem cutSections_head {x : Text} {lead q : Nat} {heading : Heading}
    (hne : letters u (slice x q (stopOf x cs)) ≠ []) :
    ∃ sec ∈ cutSections u x lead ((q, heading) :: cs), sec.begins = lead + q ∧
      sec.heading = some (trim u heading.text) ∧
      letters u sec.body = letters u (slice x q (stopOf x cs)) := by
  have hbody : trim u (slice x q (stopOf x cs)) ≠ [] := by rwa [ne_eq, trim_eq_nil_iff]
  rw [cutSections_cons, if_neg hbody]
  exact ⟨_, List.mem_append_left _ (List.mem_singleton.mpr rfl), rfl, rfl, letters_trim _⟩

/-- The sections that begin before the line of their heading are titles alone. -/
def StrayTitles (u : Tables) (lines : List (Nat × Heading)) (secs : List Section) : Prop :=
  ∀ sec ∈ secs, ∀ l ∈ lines, sec.heading = some l.2.text → sec.begins < l.1 →
    letters u sec.body = letters u l.2.text

/-- The letters of the section a cut begins are those up to the next cut. -/
theorem letters_slice {q stop : Nat} (h : q ≤ stop) :
    (letters u (slice (trim u text) q stop)).length +
      lettersFrom u text (leadOf u text + stop) = lettersFrom u text (leadOf u text + q) := by
  rw [lettersFrom_trim, lettersFrom_trim, drop_eq_slice_append h, letters_append,
    List.length_append]

theorem stray_letters {q p : Nat} {heading : Heading} {lines' : List (Nat × Heading)}
    (hs : Solid u heading.text) (hl : (p, heading) ∈ lines') (hlt : leadOf u text + q < p)
    (hne : letters u (slice (trim u text) q (stopOf (trim u text) cs)) ≠ [])
    (hstray : StrayTitles u lines'
      (cutSections u (trim u text) (leadOf u text) ((q, heading) :: cs))) :
    letters u (slice (trim u text) q (stopOf (trim u text) cs)) = letters u heading.text := by
  obtain ⟨sec, hsec, hbegins, hheading, hbody⟩ : ∃ sec ∈ cutSections u (trim u text)
      (leadOf u text) ((q, heading) :: cs), sec.begins = leadOf u text + q ∧
      sec.heading = some (trim u heading.text) ∧
      letters u sec.body = letters u (slice (trim u text) q (stopOf (trim u text) cs)) :=
    cutSections_head hne
  rw [← hbody]
  apply hstray sec hsec (p, heading) hl
  · rw [hheading, hs.2]
  · rw [hbegins]
    exact hlt

/-- No cut has more letters behind it than the line of its heading, where the sections cut too
early are titles alone: each of them takes no more letters than the line does. -/
theorem lettersFrom_cut_le {start p q : Nat} {heading : Heading}
    (h : Placed text start ((p, heading) :: lines) (shifted u text ((q, heading) :: cs)))
    (hsolid : ∀ l ∈ (p, heading) :: lines, Solid u l.2.text)
    (hocc : ∀ l ∈ (p, heading) :: lines, l.2.text <+: text.drop l.1)
    (hgap : ((p, heading) :: lines).Pairwise fun a b => a.1 + a.2.text.length ≤ b.1)
    (hstray : StrayTitles u ((p, heading) :: lines)
      (cutSections u (trim u text) (leadOf u text) ((q, heading) :: cs))) :
    lettersFrom u text (leadOf u text + q) ≤ lettersFrom u text p := by
  induction cs generalizing start p q heading lines with
  | nil =>
    by_contra hexcess
    have hs : Solid u heading.text := hsolid (p, heading) (by simp)
    have hline : heading.text <+: text.drop p := hocc (p, heading) (by simp)
    have hlt := lt_of_lettersFrom_lt (Nat.lt_of_not_le hexcess)
    have hq : q ≤ (trim u text).length := by
      cases h with
      | cons hle hq hocc' hfirst hrest =>
        by_contra hlarge
        rw [hs.occurs_trim, List.drop_eq_nil_of_le (by omega)] at hocc'
        exact hs.1 (List.prefix_nil.mp hocc')
    have hend : lettersFrom u text (leadOf u text + (trim u text).length) = 0 := by
      rw [lettersFrom_trim, List.drop_length]
      rfl
    have hslice : (letters u (slice (trim u text) q (trim u text).length)).length +
        lettersFrom u text (leadOf u text + (trim u text).length) =
          lettersFrom u text (leadOf u text + q) := letters_slice hq
    have hne : letters u (slice (trim u text) q (stopOf (trim u text) [])) ≠ [] := by
      intro hnil
      rw [stopOf] at hnil
      rw [hnil, List.length_nil] at hslice
      omega
    have htitle := stray_letters hs (by simp) hlt hne hstray
    rw [stopOf] at htitle
    rw [htitle] at hslice
    have := lettersFrom_occurs (u := u) hline (Nat.le_refl _)
    omega
  | cons c cs ih =>
    by_contra hexcess
    obtain ⟨q', heading'⟩ := c
    have hs : Solid u heading.text := hsolid (p, heading) (by simp)
    have hline : heading.text <+: text.drop p := hocc (p, heading) (by simp)
    have hlt := lt_of_lettersFrom_lt (Nat.lt_of_not_le hexcess)
    cases h with
    | cons hle hq hocc' hfirst hrest =>
      cases hrest with
      | @cons _ p' _ _ lines' _ hle' hq' hocc'' hfirst' hrest' =>
        obtain ⟨hgap1, hgap⟩ := List.pairwise_cons.mp hgap
        have hnext : p + heading.text.length ≤ p' := hgap1 (p', heading') (by simp)
        have hpos : 0 < heading.text.length := List.length_pos_iff.mpr hs.1
        have hih := ih (.cons hle' hq' hocc'' hfirst' hrest') (fun l hl => hsolid l (by simp [hl]))
          (fun l hl => hocc l (by simp [hl])) hgap (fun sec hsec l hl => hstray sec
            (by rw [cutSections_cons]; exact List.mem_append_right _ hsec) l (by simp [hl]))
        have hslice : (letters u (slice (trim u text) q q')).length +
            lettersFrom u text (leadOf u text + q') = lettersFrom u text (leadOf u text + q) :=
          letters_slice (by omega)
        have hne : letters u (slice (trim u text) q (stopOf (trim u text) ((q', heading') :: cs))) ≠
            [] := by
          intro hnil
          rw [stopOf] at hnil
          rw [hnil, List.length_nil] at hslice
          have hless : lettersFrom u text (leadOf u text + q') <
              lettersFrom u text (leadOf u text + q) := hs.lettersFrom_lt hocc' (by omega)
          omega
        have htitle := stray_letters hs (by simp) hlt hne hstray
        rw [stopOf] at htitle
        rw [htitle] at hslice
        have := lettersFrom_occurs (u := u) hline hnext
        omega

/-- Where the sections cut too early are titles alone there are none, and nothing disturbs the
search. -/
theorem undisturbed_of_stray {start : Nat} (h : Placed text start lines (shifted u text cs))
    (hsolid : ∀ l ∈ lines, Solid u l.2.text) (hocc : ∀ l ∈ lines, l.2.text <+: text.drop l.1)
    (hgap : lines.Pairwise fun a b => a.1 + a.2.text.length ≤ b.1)
    (hstray : StrayTitles u lines (cutSections u (trim u text) (leadOf u text) cs)) :
    Undisturbed text start lines := by
  induction cs generalizing start lines with
  | nil =>
    cases h
    trivial
  | cons c cs ih =>
    obtain ⟨q, heading⟩ := c
    have hcut := h
    cases h with
    | @cons _ p _ _ lines _ hle hq hocc' hfirst hrest =>
      have hqp : leadOf u text + q = p := by
        by_contra hne
        have hs : Solid u heading.text := hsolid (p, heading) (by simp)
        have hle := lettersFrom_cut_le hcut hsolid hocc hgap hstray
        have hlt : lettersFrom u text p < lettersFrom u text (leadOf u text + q) :=
          hs.lettersFrom_lt hocc' (by omega)
        omega
      subst hqp
      refine ⟨hfirst, ih hrest (fun l hl => hsolid l (by simp [hl])) (fun l hl => hocc l (by simp [hl]))
        (List.pairwise_cons.mp hgap).2 (fun sec hsec l hl => hstray sec ?_ l (by simp [hl]))⟩
      rw [cutSections_cons]
      exact List.mem_append_right _ hsec

/-- In front of the text nothing is found. -/
theorem undisturbed_lead_iff (hsolid : ∀ l ∈ lines, Solid u l.2.text) :
    Undisturbed text 0 lines ↔ Undisturbed text (leadOf u text) lines := by
  cases lines with
  | nil => rfl
  | cons l lines =>
    constructor
    · exact fun h => ⟨fun q _ => h.1 q (Nat.zero_le q), h.2⟩
    · intro h
      refine ⟨fun q _ hlt hpre => ?_, h.2⟩
      exact h.1 q ((hsolid l (by simp)).lead_le hpre) hlt hpre

theorem cuts_blank (headings : List Heading) : cuts u [] 0 headings = [] := by
  induction headings with
  | nil => rfl
  | cons heading headings ih =>
    rw [cuts]
    split
    · exact ih
    · rename_i hne
      cases hfind : findFrom (trim u heading.text) [] 0 with
      | none => exact ih
      | some q =>
        obtain ⟨-, hpre, -⟩ := findFrom_some hfind
        rw [List.drop_nil, List.prefix_nil] at hpre
        exact absurd hpre hne

/-- Before the sections of the cuts there is at most one, without a heading, before the first. -/
theorem splitUnitByHeadings_eq (unit : NormalizedUnit) (headings : List Heading) :
    ∃ pre, splitUnitByHeadings u unit headings = pre ++ cutSections u (trim u unit.text)
        (leadOf u unit.text) (cuts u (trim u unit.text) 0 headings) ∧
      (pre = [] ∨ (∃ body, pre = [⟨none, body, leadOf u unit.text⟩]) ∧
        ∀ c ∈ (cuts u (trim u unit.text) 0 headings).head?, 0 < c.1) := by
  simp only [splitUnitByHeadings]
  split
  · rename_i hblank
    exact ⟨[], by rw [hblank, cuts_blank]; rfl, .inl rfl⟩
  · split
    · rename_i hcuts
      refine ⟨[⟨none, trim u unit.text, leadOf u unit.text⟩], ?_, .inr ⟨⟨_, rfl⟩, by simp [hcuts]⟩⟩
      rw [hcuts, cutSections, List.append_nil]
      rfl
    · rename_i pos heading rest hcuts
      refine ⟨if pos = 0 ∨ trim u ((trim u unit.text).take pos) = [] then [] else
        [⟨none, trim u ((trim u unit.text).take pos), leadOf u unit.text⟩], by rw [hcuts]; rfl, ?_⟩
      split
      · exact .inl rfl
      · rename_i hlead
        refine .inr ⟨⟨_, rfl⟩, ?_⟩
        rw [hcuts]
        simp only [List.head?_cons, Option.mem_some_iff, forall_eq']
        omega

end Sections

section Headings

variable {u} {b : SizeBudget} {place : Nat} {unit : NormalizedUnit} {headings : List Heading}
  {ts : List ExtractedTable} {fs : List ExtractedFigure} {secs : List Section}

theorem keptSections_subset : ∀ sec ∈ keptSections u ts fs secs, sec ∈ secs := by
  induction secs generalizing ts fs with
  | nil => exact fun _ h => h
  | cons sec secs ih =>
    intro sec' h
    rw [keptSections, List.mem_append] at h
    rcases h with h | h
    · split at h
      · cases h
      · rw [List.mem_singleton.mp h]
        simp
    · exact List.mem_cons_of_mem _ (ih sec' h)

/-- Only a title alone is left out. -/
theorem words_of_not_kept {sec : Section} (h : sec ∈ secs) (hnot : sec ∉ keptSections u ts fs secs) :
    ∃ heading, sec.heading = some heading ∧ words u sec.body = words u heading := by
  induction secs generalizing ts fs with
  | nil => cases h
  | cons sec' secs ih =>
    rw [keptSections, List.mem_append, not_or] at hnot
    rcases List.mem_cons.mp h with rfl | h
    · by_cases htitle : TitleAlone u ts fs sec
      · obtain ⟨heading, hh, hw, -⟩ := htitle
        exact ⟨heading, hh, hw⟩
      · exact absurd (by simp [htitle]) hnot.1
    · exact ih h hnot.2

theorem letters_join_blank (ps : List Text) : letters u (join " " ps) = ps.flatMap (letters u) := by
  induction ps with
  | nil => rfl
  | cons p ps ih =>
    by_cases hps : ps = []
    · subst hps
      simp [join]
    · have hblank : letters u " ".toList = [] := by simp [letters, u.isSpace_blank]
      rw [join] at ih ⊢
      rw [List.intercalate_cons_of_ne_nil hps, letters_append, letters_append, hblank, ih]
      simp

theorem letters_words (text : Text) : letters u (words u text) = letters u text := by
  have h : ∀ word : Text, (LexicalQuery.split u.toUnicode word text).flatMap (letters u) =
      letters u word.reverse ++ letters u text := by
    induction text with
    | nil =>
      intro word
      cases word <;> simp [LexicalQuery.split]
    | cons c text ih =>
      intro word
      simp only [LexicalQuery.split]
      split
      · rename_i hc
        split
        · rename_i hword
          simp [ih, hword, letters, hc]
        · simp [ih, letters, hc]
      · rw [ih, List.reverse_cons, letters_append, List.append_assoc]
        rw [← letters_append]
        rfl
  rw [words, letters_join_blank, h]
  rfl

/-- The heading of a section's entry, where none but the first section is without one. -/
theorem sectionEntry_heading {pre rest : List Section} {current : Option Text} {e : Entry}
    (hpre : pre = [] ∨ ∃ sec, pre = [sec] ∧ sec.heading = none)
    (hrest : ∀ sec ∈ rest, sec.heading ≠ none)
    (he : e ∈ sectionEntries u b place unit headings current ts fs (pre ++ rest))
    (hplace : e.origin.place ≠ none) :
    ∃ sec ∈ keptSections u ts fs (pre ++ rest),
      e = sectionEntry u b place unit (headingAfter current sec) sec := by
  have htail : ∀ {ts : List ExtractedTable} {fs : List ExtractedFigure} {cur : Option Text},
      e ∈ sectionEntries u b place unit headings cur ts fs rest →
      ∃ sec ∈ keptSections u ts fs rest,
        e = sectionEntry u b place unit (headingAfter current sec) sec := by
    intro ts fs cur he
    rcases mem_sectionEntries he with ⟨sec, hsec, before, rfl⟩ | ⟨_, _, _, rfl⟩ | ⟨_, _, _, rfl⟩
    · refine ⟨sec, hsec, ?_⟩
      obtain ⟨heading, hh⟩ := Option.ne_none_iff_exists'.mp (hrest sec (keptSections_subset sec hsec))
      simp [headingAfter, hh]
    · exact absurd rfl hplace
    · exact absurd rfl hplace
  rcases hpre with rfl | ⟨first, rfl, hnone⟩
  · exact htail he
  · rw [List.singleton_append] at he ⊢
    rw [sectionEntries, List.mem_append, List.mem_append] at he
    rw [keptSections]
    rcases he with he | he | he
    · split at he
      · cases he
      · rename_i hkept
        exact ⟨first, by simp [hkept], List.mem_singleton.mp he⟩
    · simp [attachedEntries, hnone] at he
    · obtain ⟨sec, hsec, heq⟩ := htail he
      exact ⟨sec, List.mem_append_right _ hsec, heq⟩

end Headings

section Cited

variable (b : SizeBudget) (result : NormalizationResult)

/-- The prose of the unit at a place is cited under the last heading line at or before where its
section begins, or under the heading carried over. -/
def CitedRight (place : Nat) (lines : List (Nat × Heading)) : Prop :=
  ∀ c ∈ chunk u b result, ∀ begins, c.origin = .section place begins →
    c.sectionHeading = headingAt lines (carriedOver result (headingBefore u result place)) begins

variable {u b result} {place : Nat} {unit : NormalizedUnit} {lines : List (Nat × Heading)}

/-- Nothing disturbs the search for the headings of a unit that is cut. -/
def InPlace (unit : NormalizedUnit) (lines : List (Nat × Heading)) : Prop :=
  unit.textIsTable = false → Undisturbed unit.text 0 lines

theorem placed_of_lines {text : Text} {headings : List Heading}
    (h : HeadingLines u text headings lines) :
    Placed text (leadOf u text) lines (shifted u text (cuts u (trim u text) 0 headings)) := by
  have hplaced : Placed text (leadOf u text + 0) lines
      (shifted u text (cuts u (trim u text) 0 (lines.map Prod.snd))) :=
    cuts_placed h.solid (fun l hl => (h.atLine l hl).occurs) h.gap
      (fun l hl => (h.solid l hl).lead_le (h.atLine l hl).occurs)
  rwa [h.listed] at hplaced

/-- A cut is right exactly at its line: before it, another heading is in force. -/
theorem section_right {text : Text} {headings : List Heading} {carried : Option Text}
    (h : HeadingLines u text headings lines) (hund : Undisturbed text 0 lines) {sec : Section}
    (hsec : sec ∈ cutSections u (trim u text) (leadOf u text) (cuts u (trim u text) 0 headings)) :
    sec.heading = headingAt lines carried sec.begins := by
  have hcuts := (placed_of_lines h).eq_of_undisturbed ((undisturbed_lead_iff h.solid).mp hund)
  obtain ⟨c, hc, hbegins, hheading, -⟩ := mem_cutSections hsec
  have hl : (leadOf u text + c.1, c.2) ∈ lines := by
    rw [← hcuts]
    exact List.mem_map_of_mem hc
  rw [hbegins, hheading, (h.solid _ hl).2]
  exact (headingAt_line h hl).symm

theorem sectionsOf_eq (htext : unit.textIsTable = false) :
    sectionsOf u result unit = splitUnitByHeadings u unit (headingsOf result unit) := by
  rw [sectionsOf, htext]
  rfl

/-- What a section's chunk records: a section that is kept, under its own heading or the one
carried over. -/
theorem chunk_section {c : Chunk} {begins : Nat} (hunit : result.units[place]? = some unit)
    (hc : c ∈ chunk u b result) (ho : c.origin = .section place begins) :
    unit.textIsTable = false ∧ ∃ sec ∈ proseSections u result unit, sec.begins = begins ∧
      c.sectionHeading = headingAfter (carriedOver result (headingBefore u result place)) sec := by
  rw [chunk_eq] at hc
  obtain ⟨e, he, t, ht, i, rfl⟩ := mem_numbered hc
  obtain ⟨place', unit', hunit', he⟩ := mem_entries.mp he
  have hplace : e.origin.place = some place := by
    rw [show e.origin = _ from ho]
    rfl
  have hsame : place' = place := by
    rcases place_of_mem he with h | h
    · rw [h] at hplace
      cases hplace
    · rw [h] at hplace
      exact Option.some.inj hplace
  subst hsame
  obtain rfl : unit' = unit := Option.some.inj (hunit'.symm.trans hunit)
  obtain ⟨pre, hsecs, hpre⟩ := splitUnitByHeadings_eq (u := u) unit' (headingsOf result unit')
  cases htext : unit'.textIsTable with
  | true =>
    have hnil : sectionsOf u result unit' = [] := by rw [sectionsOf, htext]; rfl
    rw [unitEntries, hnil] at he
    rcases mem_sectionEntries he with ⟨sec, hsec, _, rfl⟩ | ⟨_, _, _, rfl⟩ | ⟨_, _, _, rfl⟩
    · cases hsec
    · cases hplace
    · cases hplace
  | false =>
    have hshape : pre = [] ∨ ∃ sec, pre = [sec] ∧ sec.heading = none := by
      rcases hpre with rfl | ⟨⟨body, rfl⟩, -⟩
      · exact .inl rfl
      · exact .inr ⟨_, rfl, rfl⟩
    have hheaded : ∀ sec ∈ cutSections u (trim u unit'.text) (leadOf u unit'.text)
        (cuts u (trim u unit'.text) 0 (headingsOf result unit')), sec.heading ≠ none := by
      intro sec hsec
      obtain ⟨_, _, _, hh, _⟩ := mem_cutSections hsec
      simp [hh]
    rw [unitEntries, sectionsOf_eq htext, hsecs] at he
    obtain ⟨sec, hsec, rfl⟩ := sectionEntry_heading hshape hheaded he (by simp [hplace])
    refine ⟨rfl, sec, ?_, ?_, rfl⟩
    · rw [proseSections, sectionsOf_eq htext, hsecs]
      exact hsec
    · cases ho
      rfl

theorem section_chunk {sec : Section} {heading : Text} (hunit : result.units[place]? = some unit)
    (hsec : sec ∈ proseSections u result unit) (hheading : sec.heading = some heading)
    (hne : letters u sec.body ≠ []) :
    ∃ c ∈ chunk u b result, c.origin = .section place sec.begins ∧
      c.sectionHeading = some heading := by
  obtain ⟨before, he⟩ := section_entry (carriedOver result (headingBefore u result place)) hsec
  have hpieces : splitToSize u b sec.body ≠ [] := by
    intro hnil
    apply hne
    rw [← splitToSize_letters (b := b), hnil]
    rfl
  obtain ⟨t, ht⟩ := List.exists_mem_of_ne_nil _ hpieces
  obtain ⟨i, hi⟩ := chunk_of_entry hunit he ht
  refine ⟨_, hi, rfl, ?_⟩
  change headingAfter before sec = some heading
  rw [headingAfter, hheading]
  rfl

theorem first_le {text : Text} {headings : List Heading} {cs : List (Nat × Heading)}
    (h : HeadingLines u text headings lines) (hcs : shifted u text cs = lines)
    (hfirst : ∀ c ∈ cs.head?, 0 < c.1) {c : Nat × Heading} (hc : c ∈ cs) : 0 < c.1 := by
  cases cs with
  | nil => cases hc
  | cons first cs =>
    have hpos := hfirst first rfl
    rcases List.mem_cons.mp hc with rfl | hc
    · exact hpos
    · have horder := h.inOrder
      rw [← hcs, shifted, List.map_cons, List.pairwise_cons] at horder
      have := horder.1 _ (List.mem_map_of_mem hc)
      simp only at this
      omega

/-- Where nothing disturbs the search for its headings, a unit's prose is cited under the heading
it follows. And only there, unless the heading carried over is one of the unit's own. -/
theorem cited_right_iff (hunit : result.units[place]? = some unit)
    (hlines : HeadingLines u unit.text (headingsOf result unit) lines) :
    (InPlace unit lines → CitedRight u b result place lines) ∧
    ((∀ l ∈ lines, carriedOver result (headingBefore u result place) ≠ some l.2.text) →
      CitedRight u b result place lines → InPlace unit lines) := by
  obtain ⟨pre, hsecs, hpre⟩ := splitUnitByHeadings_eq (u := u) unit (headingsOf result unit)
  constructor
  · intro hplace c hc begins ho
    obtain ⟨htext, sec, hsec, rfl, hheading⟩ := chunk_section hunit hc ho
    have hund := hplace htext
    have hmem := keptSections_subset sec hsec
    rw [sectionsOf_eq htext, hsecs, List.mem_append] at hmem
    rw [hheading]
    rcases hmem with hmem | hmem
    · rcases hpre with rfl | ⟨⟨body, rfl⟩, hfirst⟩
      · cases hmem
      · -- prose before the first cut is before the first line
        rw [List.mem_singleton.mp hmem]
        apply (headingAt_none _).symm
        have hcuts := (placed_of_lines hlines).eq_of_undisturbed
          ((undisturbed_lead_iff hlines.solid).mp hund)
        intro l hl
        rw [← hcuts] at hl
        obtain ⟨c, hc, rfl⟩ := List.mem_map.mp hl
        have := first_le hlines hcuts hfirst hc
        simp only
        omega
    · rw [← section_right hlines hund hmem]
      obtain ⟨_, _, _, hh, _⟩ := mem_cutSections hmem
      rw [headingAfter, hh]
      rfl
  · intro hcarried hcited htext
    rw [undisturbed_lead_iff hlines.solid]
    apply undisturbed_of_stray (placed_of_lines hlines) hlines.solid
      (fun l hl => (hlines.atLine l hl).occurs) hlines.gap
    intro sec hsec l hl hheading hlt
    -- cited under a heading that is still to come, the section is not made into chunks
    have hnot : sec ∉ proseSections u result unit := by
      intro hkept
      obtain ⟨c, hc, ho, hsection⟩ := section_chunk hunit hkept hheading
        (mem_cutSections hsec).choose_spec.2.2.2
      refine headingAt_before hlines hl hlt (hcarried l hl) ?_
      rw [← hcited c hc _ ho, hsection]
    have hmem : sec ∈ sectionsOf u result unit := by
      rw [sectionsOf_eq htext, hsecs]
      exact List.mem_append_right _ hsec
    obtain ⟨heading, hh, hw⟩ := words_of_not_kept hmem hnot
    rw [hheading] at hh
    rw [Option.some.inj hh, ← letters_words, hw, letters_words]

theorem line_once {text line : Text} {p : Nat} (hne : line ≠ [])
    (h : ∀ pos < text.length, line.isPrefixOf (text.drop pos) = true →
      (pos = 0 ∨ text[pos - 1]? = some '\n') → pos = p) :
    ∀ pos, LineAt text line pos → pos = p := by
  intro pos hline
  by_cases hlt : pos < text.length
  · exact h pos hlt (List.isPrefixOf_iff_prefix.mpr hline.occurs) hline.starts
  · have hocc := hline.occurs
    rw [List.drop_eq_nil_of_le (Nat.le_of_not_lt hlt), List.prefix_nil] at hocc
    exact absurd hocc hne

def scope : Heading := { text := "Scope".toList, level := 1, unitIndex := 1 }

def scopedPage (text : String) : NormalizationResult :=
  { documentId := 1, mimeType := pdfMime, language := none,
    units := [{ index := 1, label := [], text := text.toList }],
    headings := [scope], tables := [], figures := [],
    quality := { passed := true, failures := [], details := { charCount := 21, unitCount := 1 } } }

theorem scope_solid : Solid asciiTables scope.text := ⟨by decide, by decide⟩

theorem scope_line {text : Text} {pos : Nat} (hocc : scope.text.isPrefixOf (text.drop pos) = true)
    (hstart : pos = 0 ∨ text[pos - 1]? = some '\n')
    (hend : (text.drop (pos + scope.text.length)).head?.all (· = '\n') = true)
    (honce : ∀ q < text.length, scope.text.isPrefixOf (text.drop q) = true →
      (q = 0 ∨ text[q - 1]? = some '\n') → q = pos) :
    HeadingLines asciiTables text [scope] [(pos, scope)] where
  listed := rfl
  solid := by
    rw [List.forall_mem_singleton]
    exact scope_solid
  atLine := by
    have hunbroken : '\n' ∉ scope.text := by decide
    rw [List.forall_mem_singleton]
    exact ⟨hunbroken, List.isPrefixOf_iff_prefix.mp hocc, hstart, hend⟩
  once := by
    rw [List.forall_mem_singleton]
    exact line_once scope_solid.1 honce
  inOrder := List.pairwise_singleton _ _

theorem scope_cited : CitedRight asciiTables (characterBudget {} none none)
    (scopedPage "Scope\nApplies.") 0 [(0, scope)] := by
  have hlines : HeadingLines asciiTables "Scope\nApplies.".toList [scope] [(0, scope)] :=
    scope_line (by decide) (.inl rfl) (by decide) (by decide +kernel)
  exact (cited_right_iff rfl hlines).1 fun _ => ⟨fun q _ hlt => absurd hlt (by simp), trivial⟩

/-- A sentence names the heading before its line, and is cited under it from there on. -/
theorem scope_cited_too_early :
    HeadingLines asciiTables "See Scope.\nScope\nApplies.".toList [scope] [(11, scope)] ∧
    ¬ CitedRight asciiTables (characterBudget {} none none)
      (scopedPage "See Scope.\nScope\nApplies.") 0 [(11, scope)] := by
  refine ⟨scope_line (by decide) (.inr (by decide)) (by decide) (by decide +kernel), ?_⟩
  intro h
  have hearly : ∃ c ∈ chunk asciiTables (characterBudget {} none none)
      (scopedPage "See Scope.\nScope\nApplies."),
      c.origin = .section 0 4 ∧ c.sectionHeading = some scope.text := by decide +kernel
  obtain ⟨c, hc, ho, hheading⟩ := hearly
  have hright := h c hc 4 ho
  rw [hheading] at hright
  revert hright
  decide +kernel

end Cited

end Chunker

end KnowledgeBase.Artifact
