import KnowledgeBase.Figures

/-! The check of an answer against what it is to say. A figure counts as supported where its digits
stand, be it inside another figure, and a quotation where its words stand, be it over the place where
two passages meet. What goes unreported is what the pattern passes over or the search finds by chance. -/

namespace KnowledgeBase

namespace Fidelity

open Regex Recognizers

/-- The figure is a whole figure of one of the passages. -/
def Whole (contexts : List Text) (v : Text) : Prop :=
  ∃ c ∈ contexts, ∃ s e, Figure c s e ∧ plain (slice c s e) = plain v

variable (u : Unicode) (lower : Text → Text) (answer : Text) (contexts : List Text)

/-- A normal form within one of the passages. -/
def InOne (v : Text) : Prop := ∃ c ∈ contexts, v <:+: normalise u lower c

/-- The report is right about figures and quotations. -/
structure Exact : Prop where
  numbers : (check u lower answer contexts).unsupportedNumbers = [] ↔
    ∀ s e, Figure (stripMarkers u answer) s e →
      normalise u lower (slice (stripMarkers u answer) s e) ∉ trivials →
      Whole contexts (slice (stripMarkers u answer) s e)
  counted : (check u lower answer contexts).quotesVerbatim =
    (verbatim u lower (haystack u lower contexts) (quotations u answer)).length
  quotes : ∀ q ∈ verbatim u lower (haystack u lower contexts) (quotations u answer),
    InOne u lower contexts (normalise u lower q)

/-- A figure that is to be supported, and is whole in no passage. -/
structure Loose (s e : Nat) : Prop where
  figure : Figure (stripMarkers u answer) s e
  counts : normalise u lower (slice (stripMarkers u answer) s e) ∉ trivials
  unsupported : ¬ Whole contexts (slice (stripMarkers u answer) s e)

/-- The pattern picks the span, and what it picks is nowhere in the passages. -/
structure Missed (m : Nat × Nat) : Prop where
  picked : m ∈ (numberPattern u).finditer (stripMarkers u answer)
  counts : normalise u lower (slice (stripMarkers u answer) m.1 m.2) ∉ trivials
  absent : ¬ normalise u lower (slice (stripMarkers u answer) m.1 m.2) <:+: haystack u lower contexts

/-- A digit of the span is not one of ASCII. -/
def Foreign (m : Nat × Nat) : Prop :=
  ∃ c ∈ slice (stripMarkers u answer) m.1 m.2, u.isDigit c = true ∧ asciiDigit c = false

/-- A normal form that reaches over the place where two passages meet: it ends what comes before, and
begins what comes after. -/
def Straddles (v : Text) : Prop :=
  ∃ before after, contexts = before ++ after ∧ before ≠ [] ∧ after ≠ [] ∧ ∃ x y, v = x ++ ' ' :: y ∧
    x ++ [' '] <:+ normalise u lower (Artifact.join " \n " before ++ [' ']) ∧
    ' ' :: y <+: normalise u lower (' ' :: Artifact.join " \n " after)

/-- Where the check is right. -/
structure Reliable : Prop where
  /-- Of the loose figures one is missed, if there are any. -/
  caught : (∃ s e, Loose u lower answer contexts s e) →
    (∃ s e, Loose u lower answer contexts s e ∧
      ∃ m, Missed u lower answer contexts m ∧ s ≤ m.1 ∧ m.1 < e) ∨
    ∃ m, Missed u lower answer contexts m ∧ Foreign u answer m
  foreign : (∃ m, Missed u lower answer contexts m ∧ Foreign u answer m) →
    ∃ s e, Loose u lower answer contexts s e
  seams : ∀ q ∈ quotations u answer, minQuoteChars ≤ q.length →
    Straddles u lower contexts (normalise u lower q) → InOne u lower contexts (normalise u lower q)
  blank : contexts = [] → ∀ q ∈ quotations u answer, minQuoteChars ≤ q.length →
    normalise u lower q ≠ []

section Seams

variable {u lower} {v w x y : Text}

theorem oneSpace_true_suffix (v : Text) : oneSpace u true v <:+ oneSpace u false v ∧
    oneSpace u false v <:+ ' ' :: oneSpace u true v := by
  cases v with
  | nil => exact ⟨List.suffix_refl _, List.suffix_cons _ _⟩
  | cons c v =>
    by_cases hc : u.isSpace c = true
    · simp [oneSpace, hc]
    · simp [oneSpace, hc, List.suffix_cons]

/-- After a text the rest goes on by itself, or after the blank that the text ends with. -/
theorem oneSpace_cut (v : Text) :
    (∀ z, oneSpace u false (v ++ z) = oneSpace u false v ++ oneSpace u false z) ∨
      ∃ front, oneSpace u false v = front ++ [' '] ∧
        ∀ z, oneSpace u false (v ++ z) = front ++ ' ' :: oneSpace u true z := by
  induction v using List.reverseRecOn with
  | nil => exact .inl fun z => rfl
  | append_singleton v c ih =>
    by_cases hc : u.isSpace c = true
    · refine .inr ?_
      rcases ih with hv | ⟨front, -, hz⟩
      · exact ⟨oneSpace u false v, by simp [hv, oneSpace, hc], fun z => by simp [hv, oneSpace, hc]⟩
      · exact ⟨front, by simp [hz, oneSpace, hc], fun z => by simp [hz, oneSpace, hc]⟩
    · refine .inl fun z => ?_
      rcases ih with hv | ⟨front, -, hz⟩
      · simp [hv, oneSpace, hc]
      · simp [hz, oneSpace, hc]

/-- Up to a blank a text has its own normal form, but for a blank at its end. -/
theorem oneSpace_seam (hu : u.isSpace ' ' = true) (v : Text) : ∃ front,
    front <+: oneSpace u false v ∧ oneSpace u false v <+: front ++ [' '] ∧
      ∀ z, oneSpace u false (v ++ ' ' :: z) = front ++ ' ' :: oneSpace u true z := by
  rcases oneSpace_cut (u := u) v with hv | ⟨front, hv, hz⟩
  · refine ⟨_, List.prefix_refl _, List.prefix_append _ _, fun z => ?_⟩
    rw [hv]
    simp [oneSpace, hu]
  · refine ⟨front, hv ▸ List.prefix_append _ _, hv ▸ List.prefix_refl _, fun z => ?_⟩
    rw [hz]
    simp [oneSpace, hu]

/-- What is found in two texts with a blank between them is in one of them, or reaches over it. -/
theorem infix_append_cons {c : Char} (h : v <:+: x ++ c :: y) :
    v <:+: x ∨ v <:+: y ∨ ∃ a b, v = a ++ c :: b ∧ a <:+ x ∧ b <+: y := by
  obtain ⟨p, r, hpr⟩ := h
  rcases List.append_eq_append_iff.mp hpr with ⟨z, hx, hr⟩ | ⟨z, hpv, hz⟩
  · exact .inl ⟨p, z, hx.symm⟩
  cases z with
  | nil =>
    rw [List.append_nil] at hpv
    exact .inl ⟨p, [], by rw [List.append_nil, hpv]⟩
  | cons d z =>
    obtain ⟨rfl, hy⟩ := List.cons.inj hz
    rcases List.append_eq_append_iff.mp hpv with ⟨a, hx, hv⟩ | ⟨a, hp, hv⟩
    · exact .inr (.inr ⟨a, z, hv, ⟨p, hx.symm⟩, ⟨r, hy.symm⟩⟩)
    · cases a with
      | nil => exact .inr (.inr ⟨[], z, hv.symm, List.nil_suffix, ⟨r, hy.symm⟩⟩)
      | cons e a =>
        obtain ⟨-, hz'⟩ := List.cons.inj hv
        exact .inr (.inl ⟨a, r, by simpa [hz'] using hy.symm⟩)

variable (h : ReadsAscii u lower)

include h

theorem ordinalAhead_space (x y : Text) : ordinalAhead u (x ++ ' ' :: y) = ordinalAhead u x := by
  have hword : u.isWord ' ' = false := by
    rw [Unicode.isWord, h.alnum ' ' (by decide)]
    decide
  rcases x with _ | ⟨a, _ | ⟨b, _ | ⟨c, x⟩⟩⟩ <;>
    simp [ordinalAhead, ordinals, List.isPrefixOf, hword]

/-- A blank parts a text for the ordinals in it. -/
theorem dropOrdinals_space (x y : Text) (k : Nat)
    (hk : ∀ c ∈ (x ++ ' ' :: y).take k, OrdinalLetter c) :
    dropOrdinals u k (x ++ ' ' :: y) = dropOrdinals u k x ++ ' ' :: dropOrdinals u 0 y := by
  have hblank : u.isDigit ' ' = false := by
    rw [h.decimal ' ' (by decide)]
    decide
  induction x generalizing k with
  | nil =>
    cases k with
    | zero => simp [dropOrdinals, hblank]
    | succ k => exact absurd (hk ' ' (by simp)) (by simp [OrdinalLetter])
  | cons c x ih =>
    cases k with
    | succ k => exact ih k fun d hd => hk d (List.mem_cons_of_mem c hd)
    | zero =>
      rw [List.cons_append, dropOrdinals, dropOrdinals, ordinalAhead_space h]
      split
      · rename_i hmatch
        rw [Bool.and_eq_true, ← ordinalAhead_space h x y] at hmatch
        rw [ih 2 ?_, List.cons_append]
        obtain ⟨d, e, z, heq, hd, he⟩ := ordinalAhead_cases hmatch.2
        rw [heq]
        simpa using ⟨hd, he⟩
      · rw [ih 0 (by simp), List.cons_append]

/-- The normal form but for its blanks. -/
theorem spaced_seam (b a : Text) :
    dropOrdinals u 0 ((lower (b ++ ' ' :: a)).filter (· ≠ ',')) =
      dropOrdinals u 0 ((lower b).filter (· ≠ ',')) ++ ' ' ::
        dropOrdinals u 0 ((lower a).filter (· ≠ ',')) := by
  have hcommas : (lower (b ++ ' ' :: a)).filter (· ≠ ',') =
      (lower b).filter (· ≠ ',') ++ ' ' :: (lower a).filter (· ≠ ',') := by
    rw [h.lower_seam b ' ' a (.inr (.inl rfl)), List.filter_append]
    simp
  rw [hcommas, dropOrdinals_space h _ _ 0 (by simp)]

/-- What comes before a seam and what comes after, in the normal form of both. -/
theorem normalise_seam (b a : Text) : ∃ front back,
    normalise u lower (b ++ " \n ".toList ++ a) = front ++ ' ' :: back ∧
      normalise u lower (b ++ [' ']) = front ++ [' '] ∧ normalise u lower (' ' :: a) = ' ' :: back ∧
      front <+: normalise u lower b ∧ normalise u lower b <+: front ++ [' '] ∧
      back <:+ normalise u lower a ∧ normalise u lower a <:+ ' ' :: back := by
  obtain ⟨front, hfront, hend, hseam⟩ := oneSpace_seam h.blank.1
    (dropOrdinals u 0 ((lower b).filter (· ≠ ',')))
  have hnil : dropOrdinals u 0 ((lower []).filter (· ≠ ',')) = [] := by
    rw [h.lower_ascii [] nofun]
    rfl
  have hline : dropOrdinals u 0 ((lower ['\n']).filter (· ≠ ',')) = ['\n'] := by
    rw [h.lower_ascii ['\n'] (by simp)]
    simp [dropOrdinals, ordinalAhead, ordinals]
  obtain ⟨hback, hstart⟩ := oneSpace_true_suffix (u := u)
    (dropOrdinals u 0 ((lower a).filter (· ≠ ',')))
  refine ⟨front, _, ?_, ?_, ?_, hfront, hend, hback, hstart⟩
  · have hsep : b ++ " \n ".toList ++ a = b ++ ' ' :: (['\n'] ++ ' ' :: a) := by simp
    rw [normalise, hsep, spaced_seam h, spaced_seam h, hline, hseam]
    simp [oneSpace, h.blank]
  · rw [normalise, spaced_seam h, hnil, hseam]
    rfl
  · have hsep : ' ' :: a = [] ++ ' ' :: a := rfl
    rw [normalise, hsep, spaced_seam h, hnil]
    simp [oneSpace, h.blank]

end Seams

section Passages

variable {u lower contexts} {c d v : Text} {before after cs : List Text}

theorem join_cons (c d : Text) (cs : List Text) : Artifact.join " \n " (c :: d :: cs) =
    c ++ " \n ".toList ++ Artifact.join " \n " (d :: cs) := by
  simp [Artifact.join, List.intercalate]

theorem join_append (hb : before ≠ []) (ha : after ≠ []) : Artifact.join " \n " (before ++ after) =
    Artifact.join " \n " before ++ " \n ".toList ++ Artifact.join " \n " after := by
  induction before with
  | nil => exact absurd rfl hb
  | cons c before ih =>
    cases before with
    | nil =>
      obtain ⟨a, after, rfl⟩ := List.exists_cons_of_ne_nil ha
      rw [List.singleton_append, join_cons]
      simp [Artifact.join, List.intercalate]
    | cons d before =>
      have hrest := ih (List.cons_ne_nil d before)
      rw [List.cons_append] at hrest
      rw [List.cons_append, List.cons_append, join_cons, hrest, join_cons]
      simp only [List.append_assoc]

variable (h : ReadsAscii u lower)

include h

/-- A passage is searched in its own normal form. -/
theorem normalise_infix_haystack (hc : c ∈ contexts) :
    normalise u lower c <:+: haystack u lower contexts := by
  rw [haystack]
  induction contexts with
  | nil => cases hc
  | cons d cs ih =>
    cases cs with
    | nil =>
      rw [List.mem_singleton.mp hc]
      simp [Artifact.join]
    | cons e cs =>
      obtain ⟨front, back, hall, -, -, -, hd, -, hrest⟩ := normalise_seam h d
        (Artifact.join " \n " (e :: cs))
      rw [join_cons, hall]
      rcases List.mem_cons.mp hc with rfl | hc
      · have hsplit : front ++ ' ' :: back = front ++ [' '] ++ back := by simp
        rw [hsplit]
        exact (hd.trans (List.prefix_append _ _)).isInfix
      · exact ((ih hc).trans hrest.isInfix).trans (List.suffix_append _ _).isInfix

theorem infix_of_straddles (hv : Straddles u lower contexts v) : v <:+: haystack u lower contexts := by
  obtain ⟨before, after, rfl, hb, ha, x, y, rfl, hx, hy⟩ := hv
  obtain ⟨front, back, hall, hfront, hback, -⟩ := normalise_seam h (Artifact.join " \n " before)
    (Artifact.join " \n " after)
  rw [haystack, join_append hb ha, hall]
  rw [hfront] at hx
  rw [hback] at hy
  obtain ⟨p, hp⟩ := hx
  obtain ⟨r, hr⟩ := hy
  refine ⟨p, r, ?_⟩
  have hfront' : p ++ x = front := by
    rw [← List.append_assoc] at hp
    exact List.append_cancel_right hp
  rw [← hfront', ← hr]
  simp

theorem straddles_cons (hv : Straddles u lower cs v) : Straddles u lower (c :: cs) v := by
  obtain ⟨before, after, rfl, hb, ha, x, y, rfl, hx, hy⟩ := hv
  refine ⟨c :: before, after, rfl, List.cons_ne_nil c before, ha, x, y, rfl, hx.trans ?_, hy⟩
  obtain ⟨d, before, rfl⟩ := List.exists_cons_of_ne_nil hb
  obtain ⟨front, back, hall, -, -, -, -, -, hrest⟩ := normalise_seam h c
    (Artifact.join " \n " (d :: before) ++ [' '])
  rw [join_cons, List.append_assoc, hall]
  exact hrest.trans (List.suffix_append _ _)

/-- What is found in the passages is within one, or reaches over the place where two meet. -/
theorem infix_haystack_iff : v <:+: haystack u lower contexts ↔
    (contexts = [] ∧ v = []) ∨ InOne u lower contexts v ∨ Straddles u lower contexts v := by
  constructor
  · intro hv
    rw [haystack] at hv
    induction contexts with
    | nil =>
      have hnil : normalise u lower (Artifact.join " \n " []) = [] := by
        have hlower : lower [] = [] := h.lower_ascii [] nofun
        simp [normalise, Artifact.join, List.intercalate, hlower, dropOrdinals, oneSpace]
      rw [hnil] at hv
      exact .inl ⟨rfl, List.infix_nil.mp hv⟩
    | cons c cs ih =>
      refine .inr ?_
      cases cs with
      | nil => exact .inl ⟨c, List.mem_singleton_self c, by simpa [Artifact.join] using hv⟩
      | cons d cs =>
        obtain ⟨front, back, hall, hfront, hback, hc, -, hrest, -⟩ := normalise_seam h c
          (Artifact.join " \n " (d :: cs))
        rw [join_cons, hall] at hv
        rcases infix_append_cons hv with hv | hv | ⟨x, y, rfl, hx, hy⟩
        · exact .inl ⟨c, List.mem_cons_self, hv.trans hc.isInfix⟩
        · rcases ih (hv.trans hrest.isInfix) with ⟨hnil, -⟩ | ⟨e, he, hin⟩ | hstr
          · cases hnil
          · exact .inl ⟨e, List.mem_cons_of_mem c he, hin⟩
          · exact .inr (straddles_cons h hstr)
        · refine .inr ⟨[c], d :: cs, rfl, by simp, by simp, x, y, rfl, ?_, ?_⟩
          · have hone : Artifact.join " \n " [c] = c := by simp [Artifact.join]
            rw [hone, hfront]
            obtain ⟨p, rfl⟩ := hx
            exact ⟨p, by simp⟩
          · rw [hback]
            exact (List.cons_prefix_cons.mpr ⟨rfl, hy⟩)
  · rintro (⟨rfl, rfl⟩ | ⟨c, hc, hin⟩ | hstr)
    · exact List.nil_infix
    · exact hin.trans (normalise_infix_haystack h hc)
    · exact infix_of_straddles h hstr

end Passages

section Numbers

variable {u lower answer contexts} {s e : Nat} {m : Nat × Nat} {v w : Text}

/-- What is part of a trivial number is trivial. -/
theorem trivial_of_part (hw : w ∈ trivials) (hv : v <:+: w) (hne : v ≠ []) : v ∈ trivials := by
  have hall : ∀ w ∈ trivials, ∀ v ∈ w.sublists, v ≠ [] → v ∈ trivials := by decide
  exact hall w hw v (List.mem_sublists.mpr hv.sublist) hne

variable (h : ReadsAscii u lower)

include h

/-- A figure that is whole in a passage is found. -/
theorem found_of_whole (hw : Whole contexts w) (hv : v <:+: plain w) :
    v <:+: haystack u lower contexts := by
  obtain ⟨c, hc, s, e, hfig, hplain⟩ := hw
  have hcut : c.take s ++ slice c s e ++ c.drop e = c := by
    have htake := List.take_append_drop s (c.take e)
    rw [List.take_take, Nat.min_eq_left (Nat.le_of_lt hfig.run.lt)] at htake
    rw [slice, htake, List.take_append_drop]
  have hin := normalise_infix h hfig.run (c.take s) (c.drop e)
  rw [hcut, hplain] at hin
  exact (hv.trans hin).trans (normalise_infix_haystack h hc)

theorem Figure.normalise_eq {t : Text} (hfig : Figure t s e) :
    normalise u lower (slice t s e) = plain (slice t s e) := by
  simpa using normalise_run h hfig.run (.inl rfl)

/-- A number in digits of ASCII that is missed stands in a loose figure. -/
theorem loose_of_missed (hm : Missed u lower answer contexts m) (hdigits : ¬ Foreign u answer m) :
    ∃ s e, Loose u lower answer contexts s e ∧ s ≤ m.1 ∧ m.1 < e := by
  obtain ⟨t, ht⟩ : ∃ t, t = stripMarkers u answer := ⟨_, rfl⟩
  obtain ⟨hpicked, hcounts, habsent⟩ := hm
  rw [Foreign] at hdigits
  rw [← ht] at hpicked hcounts habsent hdigits
  obtain ⟨core, suffix, hcore, hrun, hsuffix⟩ := spells_number (scan_matches hpicked).spells
  have hspan : slice t m.1 m.2 = core ++ suffix := hcore
  have hascii : Run asciiDigit core := hrun.imp fun c hc hd => by
    by_contra hno
    exact hdigits ⟨c, by rw [hspan]; exact List.mem_append_left _ hc, hd, by simpa using hno⟩
  have hlen := congrArg List.length hspan
  have hpos := List.length_pos_of_ne_nil hascii.ne_nil
  rw [slice, List.length_drop, List.length_take, List.length_append] at hlen
  have hslice : slice t m.1 (m.1 + core.length) = core := by
    have hsub : t.take (m.1 + core.length) = (t.take m.2).take (m.1 + core.length) := by
      rw [List.take_take, Nat.min_eq_left (by omega)]
    rw [slice, hsub, List.drop_take, hcore, Nat.add_sub_cancel_left, List.take_left]
  obtain ⟨s, e, hs, he, hfig⟩ := exists_figure (t := t) (i := m.1) (k := m.1 + core.length)
    (by rwa [hslice]) (by omega)
  have hpart : plain core <:+: plain (slice t s e) := by
    have hin := plain_infix (slice_within t hs he)
    rwa [hslice] at hin
  rw [hspan, normalise_run h hascii hsuffix] at hcounts habsent
  refine ⟨s, e, ⟨ht ▸ hfig, fun htrivial => ?_, fun hwhole => ?_⟩, hs, by omega⟩
  · rw [← ht, hfig.normalise_eq h] at htrivial
    exact hcounts (trivial_of_part htrivial hpart hascii.plain_ne_nil)
  · rw [← ht] at hwhole
    exact habsent (found_of_whole h hwhole hpart)

end Numbers

section Capacity

def asciiLower (t : Text) : Text := t.map Char.toLower

theorem ascii_reads : ReadsAscii ascii asciiLower where
  decimal c _ := by
    cases hd : asciiDigit c <;> simp [Unicode.isDigit, ascii, hd]
  alnum _ _ := rfl
  blank := by decide
  graphic c hlow hhigh := by
    have hblank : c ≠ ' ' := by
      rintro rfl
      exact absurd hlow (by decide)
    have htab : ¬ c ≤ '\r' := by
      intro hle
      have hnat : c.toNat ≤ 13 := UInt32.le_iff_toNat_le.mp (Char.le_def.mp hle)
      omega
    simp [ascii, hblank, htab]
  lower_ascii _ _ := rfl
  lower_seam x c y hc := by
    have hlt : c.toNat < 65 := by
      rcases hc with hc | rfl | rfl
      · have := asciiDigit_toNat hc
        omega
      · decide
      · decide
    simp [asciiLower, toLower_of_lt hlt]

end Capacity

end Fidelity

end KnowledgeBase
