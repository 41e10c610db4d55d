import KnowledgeBase.DigitRuns
import KnowledgeBase.PictureNotice

/-! A heading cleaned by itself, and in its text. What cleaning does to a line it does within the
line, but for the page furniture, which is whole lines, and the hyphen at the end of a line. -/

namespace KnowledgeBase.Artifact

open Regex Recognizers Splice

namespace TextCleaner

section Blanks

variable {t x y core : Text} {c : Char}

/-- A run of two blanks or more becomes one. -/
def squeeze : Text → Text
  | [] => []
  | c :: text =>
    if blank c && text.head?.any blank then ' ' :: squeeze (text.dropWhile blank)
    else c :: squeeze text
termination_by text => text.length
decreasing_by
  · have := (List.dropWhile_sublist blank (l := text)).length_le
    simp only [List.length_cons]
    omega
  · simp

theorem mem_squeeze : c ∈ squeeze t → c ∈ t ∨ c = ' ' := by
  fun_induction squeeze t with
  | case1 => exact fun h => .inl h
  | case2 a text hblank ih =>
    intro h
    rcases List.mem_cons.mp h with rfl | h
    · exact .inr rfl
    · exact (ih h).imp_left fun h => List.mem_cons_of_mem a ((List.dropWhile_sublist _).subset h)
  | case3 a text hblank ih =>
    intro h
    rcases List.mem_cons.mp h with rfl | h
    · exact .inl List.mem_cons_self
    · exact (ih h).imp_left fun h => List.mem_cons_of_mem a h

theorem squeeze_run {a b : Char} (ha : blank a = true) (hb : blank b = true) (text : Text) :
    squeeze (a :: b :: text) = ' ' :: squeeze (text.dropWhile blank) := by
  rw [squeeze, if_pos (by simp [ha, hb]), List.dropWhile_cons_of_pos hb]

theorem squeeze_step {a : Char} {text : Text} (h : blank a = false ∨ text.head?.any blank = false) :
    squeeze (a :: text) = a :: squeeze text := by
  rw [squeeze, if_neg]
  rcases h with h | h <;> simp [h]

/-- Where blanks do not meet, each side is squeezed by itself. -/
theorem squeeze_append (h : x.getLast?.any blank = false ∨ y.head?.any blank = false) :
    squeeze (x ++ y) = squeeze x ++ squeeze y := by
  fun_induction squeeze x with
  | case1 => rw [List.nil_append, List.nil_append]
  | case2 a text hblank ih =>
    obtain ⟨ha, htext⟩ := Bool.and_eq_true_iff.mp hblank
    obtain ⟨b, rest, rfl⟩ : ∃ b rest, text = b :: rest := by
      cases text with
      | nil => cases htext
      | cons b rest => exact ⟨b, rest, rfl⟩
    have hb : blank b = true := by simpa using htext
    rw [List.dropWhile_cons_of_pos hb] at ih ⊢
    rw [List.cons_append, List.cons_append, squeeze_run ha hb, List.cons_append]
    have hlast : (a :: b :: rest).getLast? = rest.getLast?.or (some b) := by
      simp [List.getLast?_cons, Option.or]
      cases rest.getLast? <;> rfl
    by_cases hall : ∀ c ∈ rest, blank c = true
    · have hnil : rest.dropWhile blank = [] := List.dropWhile_eq_nil_iff.mpr hall
      have hhead : y.head?.any blank = false := by
        rcases h with h | h
        · rw [hlast] at h
          cases hr : rest.getLast? with
          | none => simp [hr, hb] at h
          | some d =>
            have := hall d (List.mem_of_getLast? hr)
            simp [hr, this] at h
        · exact h
      have hdrop : y.dropWhile blank = y := by
        cases y with
        | nil => rfl
        | cons d y => exact List.dropWhile_cons_of_neg (by simpa using hhead)
      rw [List.dropWhile_append, hnil, List.isEmpty_nil, if_pos rfl, hdrop, squeeze, List.nil_append]
    · have hne : rest.dropWhile blank ≠ [] := fun h => hall (List.dropWhile_eq_nil_iff.mp h)
      have hstay : (rest.dropWhile blank).getLast? = (a :: b :: rest).getLast? := by
        obtain ⟨z, hz⟩ := List.dropWhile_suffix blank (l := rest)
        obtain ⟨front, d, hd⟩ := (List.eq_nil_or_concat' (rest.dropWhile blank)).resolve_left hne
        have hr : rest.getLast? = some d := by
          rw [← hz, hd, ← List.append_assoc, List.getLast?_concat]
        rw [hlast, hr, hd, List.getLast?_concat]
        rfl
      rw [hstay] at ih
      rw [List.dropWhile_append, if_neg (by simpa using hne), ih h]
  | case3 a text hblank ih =>
    have hstep : blank a = false ∨ (text ++ y).head?.any blank = false := by
      cases text with
      | nil => simpa using h
      | cons b rest => simpa [imp_iff_not_or] using hblank
    rw [List.cons_append, squeeze_step hstep, List.cons_append]
    cases text with
    | nil => rw [squeeze, List.nil_append, List.nil_append]
    | cons b rest => rw [ih (by simpa [List.getLast?_cons] using h)]

theorem ends_repeatedSpace (t : Text) (i : Nat) : ends t repeatedSpace i =
    if t[i]?.any blank = true ∧ t[i + 1]?.any blank = true then ends t (star (cls blank)) (i + 2)
    else [] := by
  have hone : ∀ k, ends t tabOrBlank k = if t[k]?.any blank = true then [k + 1] else [] :=
    fun k => rfl
  have hends : ends t repeatedSpace i = (ends t tabOrBlank i).flatMap fun k =>
      (ends t tabOrBlank k).flatMap (ends t (star (cls blank))) := rfl
  rw [hends, hone]
  by_cases ha : t[i]?.any blank = true
  · by_cases hb : t[i + 1]?.any blank = true <;> simp [ha, hb, hone]
  · simp [ha]

theorem splice_nil (q : Nat) : splice t q [] = t.drop q := rfl

/-- The pattern leaves of each run of blanks but one. -/
theorem sub_repeatedSpace (t : Text) : sub repeatedSpace (fun _ => [' ']) t = squeeze t := by
  have h : ∀ fuel q, q ≤ t.length → t.length ≤ q + fuel → splice t q
      ((scan t repeatedSpace fuel q).map fun m => ⟨m.1, m.2, [' ']⟩) = squeeze (t.drop q) := by
    intro fuel
    induction fuel with
    | zero =>
      intro q _ hq
      rw [Nat.add_zero] at hq
      rw [scan, List.map_nil, splice_nil, List.drop_of_length_le hq, squeeze]
    | succ fuel ih =>
      intro q hqt hq
      cases hd : t.drop q with
      | nil =>
        have hlen : t.length ≤ q := List.drop_eq_nil_iff.mp hd
        rw [scan_end (by decide) hlen, List.map_nil, splice_nil, hd, squeeze]
      | cons a text =>
        have hlt : q < t.length := by
          by_contra hge
          rw [List.drop_of_length_le (by omega)] at hd
          cases hd
        have hnext : t.drop (q + 1) = text := by
          rw [← List.drop_drop, hd, List.drop_one, List.tail_cons]
        have ha : t[q]? = some a := by rw [← List.head?_drop, hd, List.head?_cons]
        have hb : t[q + 1]? = text.head? := by rw [← hnext, List.head?_drop]
        have hends := ends_repeatedSpace t q
        rw [ha, hb] at hends
        by_cases hblank : blank a = true ∧ text.head?.any blank = true
        · rw [if_pos (by simpa using hblank)] at hends
          obtain ⟨b, rest, rfl⟩ : ∃ b rest, text = b :: rest := by
            cases text with
            | nil => simp at hblank
            | cons b rest => exact ⟨b, rest, rfl⟩
          have hrest : t.drop (q + 2) = rest := by
            rw [show q + 2 = q + 1 + 1 from rfl, ← List.drop_drop, hnext]
            rfl
          have hhead := head?_ends_star t blank (q + 2)
          rw [hrest, ← hends] at hhead
          have hsplit := List.takeWhile_append_dropWhile (p := blank) (l := rest)
          have hstop : t.drop (q + 2 + (rest.takeWhile blank).length) = rest.dropWhile blank := by
            calc t.drop (q + 2 + (rest.takeWhile blank).length)
                = rest.drop (rest.takeWhile blank).length := by rw [← List.drop_drop, hrest]
              _ = (rest.takeWhile blank ++ rest.dropWhile blank).drop
                  (rest.takeWhile blank).length := by rw [hsplit]
              _ = rest.dropWhile blank := List.drop_left
          have hlen := congrArg List.length hd
          have hle := congrArg List.length hsplit
          rw [List.length_drop, List.length_cons, List.length_cons] at hlen
          rw [List.length_append] at hle
          have hmax : max (q + 2 + (rest.takeWhile blank).length) (q + 1) =
              q + 2 + (rest.takeWhile blank).length := by omega
          rw [scan, hhead, squeeze_run hblank.1 (by simpa using hblank.2), ← hstop]
          simp only [hmax, List.map_cons, splice]
          rw [ih _ (by omega) (by omega)]
          simp
        · rw [if_neg (by simpa using hblank)] at hends
          have hstep : blank a = false ∨ text.head?.any blank = false := by
            rwa [not_and_or, Bool.not_eq_true, Bool.not_eq_true] at hblank
          rw [scan, hends, squeeze_step hstep, ← hnext]
          change splice t q ((scan t repeatedSpace fuel (q + 1)).map _) = _
          rw [splice_advance (Nat.le_succ q) hlt, ih (q + 1) hlt (by omega), hd]
          · simp
          · intro edit hedit
            obtain ⟨m, hm, rfl⟩ := List.mem_map.mp hedit
            exact scan_start_le hm
  exact h t.length 0 (Nat.zero_le _) (by omega)

end Blanks

section Untouched

variable {u : Tables} {t core : Text} {pattern : Regex Char} {replace : Text → Text} {s e p q : Nat}

/-- What no match touches is left. -/
theorem infix_sub (hr : 0 < pattern.minLen) (hpq : p ≤ q) (hq : q ≤ t.length)
    (h : ∀ s e, Matches t pattern s e → e ≤ p ∨ q ≤ s) : slice t p q <:+: sub pattern replace t := by
  refine infix_splice (sub_ordered hr t) (Nat.zero_le p) hpq hq fun edit hedit => ?_
  obtain ⟨m, hm, rfl⟩ := List.mem_map.mp hedit
  exact h _ _ (scan_matches hm)

theorem sub_none (h : ∀ s e, ¬ Matches t pattern s e) : sub pattern replace t = t := by
  have hnone : pattern.finditer t = [] :=
    List.eq_nil_iff_forall_not_mem.mpr fun m hm => h _ _ (scan_matches hm)
  rw [sub, hnone, List.map_nil, splice_nil, List.drop_zero]

theorem slice_framed (a core b : Text) :
    slice (a ++ core ++ b) a.length (a.length + core.length) = core := by
  rw [slice, List.take_append_of_le_length (by simp), List.take_of_length_le (by simp),
    List.drop_left]

/-- The letters of a piece, by their places in the text. -/
theorem getElem?_framed {a b : Text} {k : Nat} (hk : k < core.length) :
    (a ++ core ++ b)[a.length + k]? = core[k]? := by
  rw [List.append_assoc, List.getElem?_append_right (by omega), Nat.add_sub_cancel_left,
    List.getElem?_append_left hk]

/-- A run of characters none of which ends the piece lies on one side of it, if it does not lie
within. -/
theorem run_apart {a b : Text} {r : Char → Bool} (hrun : ∀ k, s ≤ k → k < e →
      ∃ c, (a ++ core ++ b)[k]? = some c ∧ r c = true)
    (hhead : core.head?.any r = false) (hlast : core.getLast?.any r = false) (hne : core ≠ []) :
    e ≤ a.length ∨ a.length + core.length ≤ s ∨ a.length < s ∧ e < a.length + core.length := by
  have hpos := List.length_pos_iff.mpr hne
  have hfirst : ¬ (s ≤ a.length ∧ a.length < e) := by
    rintro ⟨h1, h2⟩
    obtain ⟨c, hc, hr⟩ := hrun _ h1 h2
    have hget := getElem?_framed (a := a) (b := b) hpos
    rw [Nat.add_zero, hc, ← List.head?_eq_getElem?] at hget
    simp [← hget, hr] at hhead
  have hfinal : ¬ (s ≤ a.length + (core.length - 1) ∧ a.length + (core.length - 1) < e) := by
    rintro ⟨h1, h2⟩
    obtain ⟨c, hc, hr⟩ := hrun _ h1 h2
    have hget := @getElem?_framed core a b (core.length - 1) (by omega)
    rw [hc, ← List.getLast?_eq_getElem?] at hget
    simp [← hget, hr] at hlast
  omega

theorem run_within {r : Char → Bool} (h : Matches t pattern s e) (hr : Within r pattern) :
    ∀ k, s ≤ k → k < e → ∃ c, t[k]? = some c ∧ r c = true := by
  intro k hsk hke
  have hlen := h.le_length
  have hget : ((t.drop s).take (e - s))[k - s]? = t[k]? := by
    rw [List.getElem?_take_of_lt (by omega), List.getElem?_drop]
    congr 1
    omega
  have hk : t[k]? = some t[k] := List.getElem?_eq_getElem (by omega)
  exact ⟨_, hk, h.within hr _ (List.mem_of_getElem? (hget.trans hk))⟩

/-- The blanks that go stand before a newline or at the end. -/
theorem trailingSpace_run (h : Matches t trailingSpace s e) :
    (∀ k, s ≤ k → k < e → ∃ c, t[k]? = some c ∧ blank c = true) ∧ s < e ∧
      t[e]?.all (· = '\n') = true := by
  have hmin := h.minLen_le
  refine ⟨run_within h ⟨⟨fun _ h => h, fun _ h => h⟩, trivial⟩, ?_, ?_⟩
  · rw [show trailingSpace.minLen = 1 from rfl] at hmin
    omega
  · cases h with
    | seq _ hlook =>
      cases hlook with
      | look hp => exact hp

theorem excessBlankLines_run (h : Matches t excessBlankLines s e) :
    (∀ k, s ≤ k → k < e → ∃ c, t[k]? = some c ∧ (decide (c = '\n')) = true) ∧ s < e := by
  have hmin := h.minLen_le
  rw [show excessBlankLines.minLen = 3 from rfl] at hmin
  exact ⟨run_within h ⟨fun _ h => h, fun _ h => h, ⟨fun _ h => h, fun _ h => h⟩, trivial⟩, by omega⟩

/-- A piece of a line, with no blank at its ends. -/
structure Piece (core : Text) : Prop where
  ne_nil : core ≠ []
  plain : '\n' ∉ core
  head : core.head?.any blank = false
  last : core.getLast?.any blank = false

theorem Piece.inside (h : Piece core) {a b : Text} {k : Nat} (hak : a.length ≤ k)
    (hkb : k < a.length + core.length) : ∃ c, (a ++ core ++ b)[k]? = some c ∧ c ≠ '\n' := by
  have hget := @getElem?_framed core a b (k - a.length) (by omega)
  rw [Nat.add_sub_cancel' hak] at hget
  obtain ⟨c, hc⟩ : ∃ c, core[k - a.length]? = some c := ⟨_, List.getElem?_eq_getElem (by omega)⟩
  exact ⟨c, hget.trans hc, fun hn => h.plain (hn ▸ List.mem_of_getElem? hc)⟩

theorem Piece.infix_trailingSpace (h : Piece core) (hc : core <:+: t) :
    core <:+: sub trailingSpace (fun _ => []) t := by
  obtain ⟨a, b, rfl⟩ := hc
  have hslice := slice_framed a core b
  have hin := @infix_sub (a ++ core ++ b) trailingSpace (fun _ => []) a.length
    (a.length + core.length) (by decide) (by omega) (by simp) fun s e hm => by
      obtain ⟨hrun, hse, hend⟩ := trailingSpace_run hm
      rcases run_apart hrun h.head h.last h.ne_nil with hle | hge | ⟨hs, he⟩
      · exact .inl hle
      · exact .inr hge
      · obtain ⟨c, hc, hne⟩ := @Piece.inside core h a b e (by omega) he
        rw [hc] at hend
        exact absurd (by simpa using hend) hne
  rwa [hslice] at hin

theorem Piece.infix_excessBlankLines (h : Piece core) (hc : core <:+: t) :
    core <:+: sub excessBlankLines (fun _ => ['\n', '\n']) t := by
  obtain ⟨a, b, rfl⟩ := hc
  have hslice := slice_framed a core b
  have hin := @infix_sub (a ++ core ++ b) excessBlankLines (fun _ => ['\n', '\n']) a.length
    (a.length + core.length) (by decide) (by omega) (by simp) fun s e hm => by
      obtain ⟨hrun, hse⟩ := excessBlankLines_run hm
      have hpos := List.length_pos_iff.mpr h.ne_nil
      by_contra hover
      -- a newline would stand in the piece
      obtain ⟨k, hk⟩ : ∃ k, k = max s a.length := ⟨_, rfl⟩
      obtain ⟨c, hc, hr⟩ := hrun k (by omega) (by omega)
      obtain ⟨d, hd, hne⟩ := @Piece.inside core h a b k (by omega) (by omega)
      rw [hc] at hd
      exact hne (Option.some.inj hd ▸ of_decide_eq_true hr)
  rwa [hslice] at hin

theorem Piece.squeeze (h : Piece core) : Piece (squeeze core) := by
  obtain ⟨c, rest, hc⟩ := List.exists_cons_of_ne_nil h.ne_nil
  obtain ⟨front, d, hd⟩ := (List.eq_nil_or_concat' core).resolve_left h.ne_nil
  have hcb : blank c = false := by simpa [hc] using h.head
  have hdb : blank d = false := by simpa [hd] using h.last
  have hfirst : TextCleaner.squeeze core = c :: TextCleaner.squeeze rest := by
    rw [hc, squeeze_step (.inl hcb)]
  have hfinal : TextCleaner.squeeze core = TextCleaner.squeeze front ++ [d] := by
    rw [hd, squeeze_append (.inr (by simpa using hdb)), squeeze_step (.inl hdb), TextCleaner.squeeze]
  refine ⟨by simp [hfirst], fun hn => ?_, by simpa [hfirst] using hcb, by simpa [hfinal] using hdb⟩
  rcases mem_squeeze hn with hn | hn
  · exact h.plain hn
  · exact absurd hn (by decide)

theorem Piece.infix_squeeze (h : Piece core) (hc : core <:+: t) :
    TextCleaner.squeeze core <:+: TextCleaner.squeeze t := by
  obtain ⟨a, b, rfl⟩ := hc
  rw [List.append_assoc, squeeze_append (.inr ?_), squeeze_append (.inl h.last),
    ← List.append_assoc]
  · exact List.infix_append _ _ _
  · obtain ⟨c, rest, rfl⟩ := List.exists_cons_of_ne_nil h.ne_nil
    simpa using h.head

/-- Of what the pattern matches only the hyphen and the newline go. -/
theorem infix_lineBreakHyphen {a b : Text} (hplain : '\n' ∉ core)
    (hkept : ∀ m ∈ (lineBreakHyphen u).finditer (a ++ core ++ b),
      m.1 + 2 ≠ a.length + core.length) :
    core <:+: sub (lineBreakHyphen u) (fun m => m.take 1 ++ m.drop 3) (a ++ core ++ b) := by
  obtain ⟨t, ht⟩ : ∃ t, t = a ++ core ++ b := ⟨_, rfl⟩
  rw [← ht] at hkept ⊢
  have hmin : 0 < (lineBreakHyphen u).minLen := by simp [lineBreakHyphen, minLen, concat, lit]
  have hnarrow : List.Forall₂ (Narrows t)
      (((lineBreakHyphen u).finditer t).map fun m =>
        ⟨m.1, m.2, (slice t m.1 m.2).take 1 ++ (slice t m.1 m.2).drop 3⟩)
      (((lineBreakHyphen u).finditer t).map fun m => ⟨m.1 + 1, m.1 + 3, []⟩) := by
    rw [List.forall₂_map_left_iff, List.forall₂_map_right_iff, List.forall₂_same]
    intro m hm
    obtain ⟨w, c, hstop, -, -, -, hslice, hdrop⟩ := lineBreakHyphen_slice (scan_matches hm)
    have hrest : t.drop (m.1 + 3) = c :: t.drop m.2 := by rw [← List.drop_drop, hdrop]; rfl
    refine ⟨by simp, by simp only []; omega, by simp, ?_⟩
    rw [hslice]
    simp [hdrop, hrest, hstop]
  obtain ⟨hordered, heq⟩ := splice_narrow
    (@sub_ordered (lineBreakHyphen u) (fun m => m.take 1 ++ m.drop 3) hmin t) hnarrow
  have hslice : slice t a.length (a.length + core.length) = core := by rw [ht, slice_framed]
  rw [sub, heq, ← hslice]
  refine infix_splice hordered (Nat.zero_le _) (by omega) (by simp [ht]) fun edit hedit => ?_
  obtain ⟨m, hm, rfl⟩ := List.mem_map.mp hedit
  obtain ⟨w, c, -, -, -, -, -, hdrop⟩ := lineBreakHyphen_slice (scan_matches hm)
  have hnewline : t[m.1 + 2]? = some '\n' := by
    rw [← List.getElem?_drop, hdrop]
    rfl
  have hne := hkept m hm
  have hout : ¬ (a.length ≤ m.1 + 2 ∧ m.1 + 2 < a.length + core.length) := by
    rintro ⟨h1, h2⟩
    have hget := @getElem?_framed core a b (m.1 + 2 - a.length) (by omega)
    rw [Nat.add_sub_cancel' h1, ← ht, hnewline] at hget
    exact hplain (List.mem_of_getElem? hget.symm)
  simp only []
  omega

end Untouched

section OneLine

variable {u : Tables} {t x line : Text}

/-- What the tables say of lines: a tab and what ends a line are white space. -/
structure Breaking (u : Tables) : Prop extends Conforms u where
  isSpace_tab : u.isSpace '\t' = true
  isSpace_break : ∀ c, Chunker.isLineBreak c = true → u.isSpace c = true

theorem Breaking.space_of_blank (hu : Breaking u) {c : Char} (h : blank c = true) :
    u.isSpace c = true := by
  rcases Bool.or_eq_true_iff.mp h with h | h
  · rw [of_decide_eq_true h]
    exact u.isSpace_blank
  · rw [of_decide_eq_true h]
    exact hu.isSpace_tab

theorem trim_spaces (h : ∀ c ∈ t, u.isSpace c = true) : trim u t = [] := by
  rw [trim, strip, List.dropWhile_eq_nil_iff.mpr h]
  rfl

theorem trim_append_spaces (h : ∀ c ∈ t, u.isSpace c = true) : trim u (x ++ t) = trim u x := by
  have hdrop : t.reverse.dropWhile u.isSpace = [] :=
    List.dropWhile_eq_nil_iff.mpr fun c hc => h c (List.mem_reverse.mp hc)
  by_cases hall : ∀ c ∈ x, u.isSpace c = true
  · rw [trim_spaces hall, trim_spaces]
    intro c hc
    exact (List.mem_append.mp hc).elim (hall c) (h c)
  · have hne : x.dropWhile u.isSpace ≠ [] := fun hnil => hall (List.dropWhile_eq_nil_iff.mp hnil)
    have hfront : (x ++ t).dropWhile u.isSpace = x.dropWhile u.isSpace ++ t := by
      rw [List.dropWhile_append, if_neg (by simpa using hne)]
    rw [trim, strip, hfront, List.reverse_append, List.dropWhile_append, hdrop, List.isEmpty_nil,
      if_pos rfl]
    rfl

theorem trim_spaces_append (h : ∀ c ∈ t, u.isSpace c = true) : trim u (t ++ x) = trim u x := by
  rw [trim, strip, List.dropWhile_append, List.dropWhile_eq_nil_iff.mpr h, List.isEmpty_nil,
    if_pos rfl]
  rfl

theorem piece_of_solid (hu : Breaking u) (h : Solid u t) (hn : '\n' ∉ t) : Piece t := by
  obtain ⟨c, rest, hc⟩ := List.exists_cons_of_ne_nil h.1
  obtain ⟨front, d, hd⟩ := (List.eq_nil_or_concat' t).resolve_left h.1
  have hstay : ∀ a, u.isSpace a = false → blank a = false := by
    intro a ha
    by_contra hb
    rw [hu.space_of_blank (by simpa using hb)] at ha
    cases ha
  refine ⟨h.1, hn, ?_, ?_⟩
  · rw [hc]
    exact hstay c (h.head hc)
  · rw [hd, List.getLast?_concat]
    exact hstay d (h.last hd)

theorem squeeze_spaces (h : ∀ c ∈ t, u.isSpace c = true) : ∀ c ∈ squeeze t, u.isSpace c = true := by
  intro c hc
  rcases mem_squeeze hc with hc | rfl
  · exact h c hc
  · exact u.isSpace_blank

theorem trim_squeeze (hu : Breaking u) (hn : '\n' ∉ t) : trim u (squeeze t) = squeeze (trim u t) := by
  obtain ⟨tail, ht, htail⟩ := text_eq (u := u) t
  have hlead : ∀ c ∈ t.takeWhile u.isSpace, u.isSpace c = true := fun c hc =>
    List.mem_takeWhile_imp hc
  by_cases hcore : trim u t = []
  · have hall : ∀ c ∈ t, u.isSpace c = true := by
      intro c hc
      rw [ht, hcore, List.nil_append] at hc
      exact (List.mem_append.mp hc).elim (hlead c) (htail c)
    rw [hcore, trim_spaces (squeeze_spaces hall), squeeze]
  · have hsub : trim u t <:+: t := ⟨t.takeWhile u.isSpace, tail, by rw [List.append_assoc, ← ht]⟩
    have hsolid : Solid u (trim u t) := ⟨hcore, trim_trim t⟩
    have hpiece := piece_of_solid hu hsolid fun h => hn (hsub.subset h)
    have hsplit : squeeze t = squeeze (t.takeWhile u.isSpace) ++
        (squeeze (trim u t) ++ squeeze tail) := by
      conv_lhs => rw [ht]
      rw [squeeze_append (.inr ?_), squeeze_append (.inl hpiece.last)]
      rw [List.head?_append_of_ne_nil _ hcore]
      exact hpiece.head
    obtain ⟨c, rest, hc⟩ := List.exists_cons_of_ne_nil hcore
    obtain ⟨front, d, hd⟩ := (List.eq_nil_or_concat' (trim u t)).resolve_left hcore
    have hcb : blank c = false := by simpa [hc] using hpiece.head
    have hdb : blank d = false := by simpa [hd] using hpiece.last
    have hstay : Solid u (squeeze (trim u t)) := by
      have hfirst : squeeze (trim u t) = c :: squeeze rest := by rw [hc, squeeze_step (.inl hcb)]
      have hlast : squeeze (trim u t) = squeeze front ++ [d] := by
        rw [hd, squeeze_append (.inr (by simpa using hdb)), squeeze_step (.inl hdb), squeeze]
      exact solid_of_ends hfirst hlast (hsolid.head hc) (hsolid.last hd)
    rw [hsplit, trim_spaces_append (squeeze_spaces hlead), trim_append_spaces (squeeze_spaces htail),
      hstay.2]

/-- In a line the pattern takes out the blanks at its end. -/
theorem trim_trailingSpace (hu : Breaking u) (hn : '\n' ∉ t) :
    trim u (sub trailingSpace (fun _ => []) t) = trim u t := by
  have hend : ∀ m ∈ trailingSpace.finditer t, m.1 < m.2 ∧ m.2 = t.length ∧
      ∀ c ∈ t.drop m.1, blank c = true := by
    intro m hm
    obtain ⟨hrun, hlt, hall⟩ := trailingSpace_run (scan_matches hm)
    have hlen := (scan_matches hm).le_length
    have hstop : m.2 = t.length := by
      by_contra hne
      have hget : t[m.2]? = some t[m.2] := List.getElem?_eq_getElem (by omega)
      rw [hget] at hall
      exact hn (by
        have : t[m.2] = '\n' := by simpa using hall
        exact this ▸ List.getElem_mem _)
    refine ⟨hlt, hstop, fun c hc => ?_⟩
    obtain ⟨k, hk⟩ := List.mem_iff_getElem?.mp hc
    rw [List.getElem?_drop] at hk
    have hklt := (List.getElem?_eq_some_iff.mp hk).1
    obtain ⟨d, hd, hblank⟩ := hrun (m.1 + k) (by omega) (by omega)
    rw [hd] at hk
    exact Option.some.inj hk ▸ hblank
  have happart := finditer_apart (show 0 < trailingSpace.minLen by decide) (t := t)
  rw [sub]
  cases hms : trailingSpace.finditer t with
  | nil => rw [List.map_nil, splice_nil, List.drop_zero]
  | cons m ms =>
    rw [hms] at hend happart
    obtain ⟨hlt, hstop, hblank⟩ := hend m (by simp)
    cases ms with
    | nil =>
      have hcut := List.take_append_drop m.1 t
      conv_rhs => rw [← hcut, trim_append_spaces fun c hc => hu.space_of_blank (hblank c hc)]
      simp [splice, hstop]
    | cons m' ms =>
      obtain ⟨hlt', hstop', -⟩ := hend m' (by simp)
      have := happart.2.2.1
      omega

theorem newline_of_matches {s e : Nat} (h : Matches t excessBlankLines s e ∨
    Matches t (lineBreakHyphen u) s e) : '\n' ∈ t := by
  rcases h with h | h
  · obtain ⟨hrun, hlt⟩ := excessBlankLines_run h
    obtain ⟨c, hc, hr⟩ := hrun s (le_refl s) hlt
    exact of_decide_eq_true hr ▸ List.mem_of_getElem? hc
  · obtain ⟨w, a, -, -, -, -, -, hdrop⟩ := lineBreakHyphen_slice h
    have hmem : '\n' ∈ t.drop s := by simp [hdrop]
    exact List.mem_of_mem_drop hmem

/-- The passes over a line by itself. -/
theorem passes_line (hu : Breaking u) (hn : '\n' ∉ t) :
    trim u (sub excessBlankLines (fun _ => ['\n', '\n']) (sub trailingSpace (fun _ => [])
      (sub repeatedSpace (fun _ => [' ']) (sub (lineBreakHyphen u) (fun m => m.take 1 ++ m.drop 3)
        t)))) = squeeze (trim u t) := by
  have hsqueeze : '\n' ∉ squeeze t := fun h => by
    rcases mem_squeeze h with h | h
    · exact hn h
    · exact absurd h (by decide)
  have htrailing : '\n' ∉ sub trailingSpace (fun _ => []) (squeeze t) := fun h => by
    rcases mem_splice h with h | ⟨edit, hedit, h⟩
    · exact hsqueeze h
    · obtain ⟨m, -, rfl⟩ := List.mem_map.mp hedit
      exact List.not_mem_nil h
  rw [sub_none fun s e h => hn (newline_of_matches (.inr h)), sub_repeatedSpace,
    sub_none fun s e h => htrailing (newline_of_matches (u := u) (.inl h)),
    trim_trailingSpace hu hsqueeze, trim_squeeze hu hn]

end OneLine

/-- The line stands between line breaks or the ends of the text. -/
structure CompleteLine (before line after : Text) : Prop where
  plain : NoBreak line
  opens : before.getLast?.all Chunker.isLineBreak = true
  closes : after.head?.all Chunker.isLineBreak = true

/-- What the text ends in, from its last newline on. -/
def lastLine (text : Text) : Text := (text.splitOnP (· == '\n')).getLastD []

def firstLine (text : Text) : Text := (text.splitOnP (· == '\n')).headD []

variable (u : Tables)

/-- The line as the furniture pattern meets it: with what stands on the other side of a separator
that cleaning takes out, or that is no newline. -/
def metLine (before line after : Text) : Text :=
  lastLine (prepared u before) ++ preparedLine u line ++ firstLine (prepared u after)

/-- What is kept of the lines before. -/
def keptBefore (before : Text) : Text :=
  (((prepared u before).splitOnP (· == '\n')).dropLast.filter fun l => !isFurniture u l).flatMap
    (· ++ ['\n'])

/-- The line ends in a hyphen that is taken for a broken word's. -/
def Rejoined (before line after : Text) : Prop :=
  ∃ m ∈ (lineBreakHyphen u).finditer (keepLines (isFurniture u)
      ((prepared u (before ++ line ++ after)).splitOnP (· == '\n'))),
    m.1 + 2 = (keptBefore u before ++ lastLine (prepared u before) ++ preparedLine u line).length

instance (before line after : Text) : Decidable (Rejoined u before line after) :=
  inferInstanceAs (Decidable (∃ m ∈ _, _))

section Headings

variable {u} {before line after x y : Text}

theorem nfkc_append (hu : Conforms u) (h : x.getLast?.all (standsAlone u) = true ∨
    y.head?.all (standsAlone u) = true) : u.nfkc (x ++ y) = u.nfkc x ++ u.nfkc y := by
  rcases h with h | h
  · rcases List.eq_nil_or_concat' x with rfl | ⟨front, c, rfl⟩
    · rw [hu.nfkc_nil, List.nil_append, List.nil_append]
    · have hc : standsAlone u c = true := by simpa using h
      rw [List.append_assoc, List.singleton_append, hu.nfkc_apart front c y hc,
        hu.nfkc_apart front c [] hc, hu.nfkc_nil, List.append_nil]
  · cases y with
    | nil => rw [hu.nfkc_nil, List.append_nil, List.append_nil]
    | cons c back =>
      have hc : standsAlone u c = true := by simpa using h
      have hback := hu.nfkc_apart [] c back hc
      rw [List.nil_append, hu.nfkc_nil, List.nil_append] at hback
      rw [hu.nfkc_apart x c back hc, hback, List.append_assoc]

theorem newlines_append {c : Char} (hc : c ≠ '\n') (x y : Text) :
    newlines (x ++ c :: y) = newlines x ++ newlines (c :: y) := by
  fun_induction newlines x with
  | case1 => rfl
  | case2 text ih =>
    rw [List.cons_append, List.cons_append, newlines, ih, List.cons_append]
  | case3 d text hnot ih =>
    rw [List.cons_append, newlines, ih, List.cons_append]
    intro text' hd heq
    cases text with
    | nil => exact hc (List.cons.inj heq).1
    | cons e text => exact hnot text hd (by rw [(List.cons.inj heq).1])

theorem splitOnP_append {p : Char → Bool} (x y : Text) : (x ++ y).splitOnP p =
    (x.splitOnP p).dropLast ++
      ((x.splitOnP p).getLastD [] ++ (y.splitOnP p).headD []) :: (y.splitOnP p).tail := by
  induction x with
  | nil =>
    obtain ⟨l, ls, hy⟩ := List.exists_cons_of_ne_nil (List.splitOnP_ne_nil p y)
    simp [List.splitOnP_nil, hy]
  | cons c x ih =>
    obtain ⟨l, ls, hx⟩ := List.exists_cons_of_ne_nil (List.splitOnP_ne_nil p x)
    rw [List.cons_append, List.splitOnP_cons_eq_if_modifyHead, List.splitOnP_cons_eq_if_modifyHead, ih]
    by_cases hc : p c = true
    · simp [hc, hx]
    · cases ls <;> simp [hc, hx]

theorem keepLines_framed {furniture : Text → Bool} {l : Text} (hl : furniture l = false)
    (front back : List Text) : ∃ rest, keepLines furniture (front ++ l :: back) =
      (front.filter fun l => !furniture l).flatMap (· ++ ['\n']) ++ l ++ rest := by
  induction front with
  | nil =>
    cases back with
    | nil => exact ⟨[], by simp [keepLines, hl]⟩
    | cons l' back =>
      exact ⟨_, by rw [List.nil_append, keepLines_cons (by simp), hl]; rfl⟩
  | cons l' front ih =>
    obtain ⟨rest, hrest⟩ := ih
    refine ⟨rest, ?_⟩
    rw [List.cons_append, keepLines_cons (by simp), hrest]
    by_cases hf : furniture l' = true <;> simp [hf]

theorem newlines_plain (h : ∀ c ∈ x, c ≠ '\n' ∧ c ≠ '\r') (y : Text) :
    newlines (x ++ y) = x ++ newlines y := by
  induction x with
  | nil => rfl
  | cons c x ih =>
    obtain ⟨hc, hx⟩ := List.forall_mem_cons.mp h
    rw [List.cons_append, newlines, if_neg hc.2, ih hx, List.cons_append]
    exact fun _ hr => absurd hr hc.2

theorem noBreak_isBreak (h : NoBreak line) : ∀ c ∈ line, isBreak c = false := by
  intro c hc
  by_contra hb
  have hall : ['\n', '\r', '\x0b', '\x0c'].all Chunker.isLineBreak = true := by decide
  have hmem : c ∈ ['\n', '\r', '\x0b', '\x0c'] :=
    List.contains_iff_mem.mp (by simpa only [isBreak, Bool.not_eq_false] using hb)
  have hbreak := List.all_eq_true.mp hall c hmem
  rw [h c hc] at hbreak
  cases hbreak

theorem Breaking.alone (hu : Breaking u) {o : Option Char}
    (h : o.all Chunker.isLineBreak = true) : o.all (standsAlone u) = true := by
  cases o with
  | none => rfl
  | some c =>
    have hspace := hu.isSpace_break c h
    simp [standsAlone, hspace]

/-- A line that breaks set apart is prepared by itself. -/
theorem prepared_framed (hu : Breaking u) (hline : CompleteLine before line after)
    (hne : preparedLine u line ≠ []) : prepared u (before ++ line ++ after) =
      prepared u before ++ preparedLine u line ++ prepared u after := by
  have hplain := noBreak_isBreak hline.plain
  have hnone : ∀ c ∈ preparedLine u line, c ≠ '\n' ∧ c ≠ '\r' := fun c hc =>
    not_newline (preparedLine_noBreak hu.toConforms hplain c hc)
  obtain ⟨c, rest, hc⟩ := List.exists_cons_of_ne_nil hne
  have hfirst := hnone c (by simp [hc])
  rw [prepared, nfkc_append hu.toConforms (.inr (hu.alone hline.closes)),
    nfkc_append hu.toConforms (.inl (hu.alone hline.opens)), scrub_append, scrub_append,
    scrub_line (nfkc_noBreak hu.toConforms hplain), List.append_assoc]
  change newlines (scrub (u.nfkc before) ++ (preparedLine u line ++ scrub (u.nfkc after))) = _
  have hcut := newlines_append hfirst.1 (scrub (u.nfkc before)) (rest ++ scrub (u.nfkc after))
  rw [← List.cons_append, ← hc] at hcut
  rw [hcut, newlines_plain hnone, ← List.append_assoc]
  rfl

/-- Trimming the line takes nothing out of what is left of it. -/
theorem preparedLine_trim (hu : Breaking u) (line : Text) :
    preparedLine u (trim u line) <:+: preparedLine u line := by
  obtain ⟨tail, hcut, htail⟩ := text_eq (u := u) line
  have hspace : ∀ {o : Option Char}, (∀ c ∈ o, u.isSpace c = true) →
      o.all (standsAlone u) = true := by
    intro o ho
    cases o with
    | none => rfl
    | some c => simp [standsAlone, ho c rfl]
  have hlead : u.nfkc line = u.nfkc (line.takeWhile u.isSpace) ++
      (u.nfkc (trim u line) ++ u.nfkc tail) := by
    conv_lhs => rw [hcut]
    rw [nfkc_append hu.toConforms (.inl (hspace fun c hc =>
      List.mem_takeWhile_imp (List.mem_of_getLast? hc))), nfkc_append hu.toConforms
      (.inr (hspace fun c hc => htail c (List.mem_of_head? hc)))]
  rw [preparedLine, preparedLine, hlead, List.filter_append, List.filter_append,
    ← List.append_assoc]
  exact List.infix_append _ _ _

theorem clean_solid (h : clean u x ≠ []) : Solid u (clean u x) := by
  refine ⟨h, ?_⟩
  rw [clean_eq]
  split
  · rfl
  · exact trim_trim _

/-- A line cleaned by itself. -/
theorem clean_line (hu : Breaking u) (hline : NoBreak line) (hne : clean u line ≠ []) :
    clean u line = squeeze (trim u (preparedLine u line)) ∧
      Piece (trim u (preparedLine u line)) := by
  have hplain := noBreak_isBreak hline
  have hnone : ∀ c ∈ preparedLine u line, c ≠ '\n' ∧ c ≠ '\r' := fun c hc =>
    not_newline (preparedLine_noBreak hu.toConforms hplain c hc)
  have hnewline : '\n' ∉ preparedLine u line := fun h => (hnone _ h).1 rfl
  have hprepared : prepared u line = preparedLine u line := by
    rw [prepared, scrub_line (nfkc_noBreak hu.toConforms hplain)]
    exact newlines_line fun c hc => (hnone c hc).2
  have hnil : line ≠ [] := by
    rintro rfl
    exact hne (by rw [clean_eq, if_pos rfl])
  have hclean : clean u line = if isFurniture u (preparedLine u line) = true then []
      else squeeze (trim u (preparedLine u line)) := by
    rw [clean_eq, if_neg hnil, hprepared, sub_furniture hu.toConforms,
      List.splitOnP_eq_singleton fun c hc => by simpa using (hnone c hc).1, keepLines]
    split
    · rw [passes_line hu List.not_mem_nil, trim_spaces (by simp), squeeze]
    · rw [passes_line hu hnewline]
  by_cases hf : isFurniture u (preparedLine u line) = true
  · exact absurd (hclean.trans (if_pos hf)) hne
  rw [if_neg hf] at hclean
  have hcore : trim u (preparedLine u line) ≠ [] := by
    intro h
    rw [hclean, h, squeeze] at hne
    exact hne rfl
  obtain ⟨tail, hcut, -⟩ := text_eq (u := u) (preparedLine u line)
  refine ⟨hclean, piece_of_solid hu ⟨hcore, trim_trim _⟩ fun h => hnewline ?_⟩
  rw [hcut]
  simp [h]

/-- A complete line, trimmed and cleaned, is in the cleaned text wherever it is not page furniture
and keeps its last hyphen. -/
theorem heading_in_text (hu : Breaking u) (hline : CompleteLine before line after)
    (hne : clean u (trim u line) ≠ []) (hkept : isFurniture u (metLine u before line after) = false)
    (hhyphen : ¬ Rejoined u before line after) :
    clean u (trim u line) <:+: clean u (before ++ line ++ after) := by
  obtain ⟨hclean, hpiece⟩ := clean_line hu (noBreak_trim hline.plain) hne
  have hcore : trim u (preparedLine u (trim u line)) <:+: preparedLine u line := by
    obtain ⟨tail, hcut, -⟩ := text_eq (u := u) (preparedLine u (trim u line))
    have hin : trim u (preparedLine u (trim u line)) <:+: preparedLine u (trim u line) :=
      ⟨_, tail, by rw [List.append_assoc, ← hcut]⟩
    exact hin.trans (preparedLine_trim hu line)
  have hprepared : preparedLine u line ≠ [] := fun h =>
    hpiece.ne_nil (List.infix_nil.mp (h ▸ hcore))
  have hnewline : '\n' ∉ preparedLine u line := fun h =>
    (not_newline (preparedLine_noBreak hu.toConforms (noBreak_isBreak hline.plain) _ h)).1 rfl
  have htext : before ++ line ++ after ≠ [] := by
    intro h
    have hnil : line = [] := by simp_all
    rw [hnil, preparedLine, hu.nfkc_nil] at hprepared
    exact hprepared rfl
  -- the lines that are kept, around the line itself
  obtain ⟨rest, hlines⟩ : ∃ rest, keepLines (isFurniture u)
      ((prepared u (before ++ line ++ after)).splitOnP (· == '\n')) =
        keptBefore u before ++ lastLine (prepared u before) ++ preparedLine u line ++ rest := by
    obtain ⟨rest, hrest⟩ := keepLines_framed hkept
      ((prepared u before).splitOnP (· == '\n')).dropLast
      ((prepared u after).splitOnP (· == '\n')).tail
    refine ⟨firstLine (prepared u after) ++ rest, ?_⟩
    have hsingle : (preparedLine u line).splitOnP (· == '\n') = [preparedLine u line] :=
      List.splitOnP_eq_singleton fun c hc => by simpa using fun h : c = '\n' => hnewline (h ▸ hc)
    rw [prepared_framed hu hline hprepared, List.append_assoc, splitOnP_append, splitOnP_append,
      hsingle]
    simpa [metLine, keptBefore, lastLine, firstLine] using hrest
  rw [Rejoined, hlines] at hhyphen
  have hjoined := infix_lineBreakHyphen (u := u) hnewline fun m hm h =>
    hhyphen ⟨m, hm, by rw [h, ← List.length_append]⟩
  have hpassed : squeeze (trim u (preparedLine u (trim u line))) <:+:
      sub excessBlankLines (fun _ => ['\n', '\n']) (sub trailingSpace (fun _ => [])
        (squeeze (sub (lineBreakHyphen u) (fun m => m.take 1 ++ m.drop 3)
          (keptBefore u before ++ lastLine (prepared u before) ++ preparedLine u line ++ rest)))) :=
    hpiece.squeeze.infix_excessBlankLines (hpiece.squeeze.infix_trailingSpace
      (hpiece.infix_squeeze (hcore.trans hjoined)))
  have hsolid : Solid u (squeeze (trim u (preparedLine u (trim u line)))) :=
    hclean ▸ clean_solid hne
  rw [hclean, clean_eq, if_neg htext, sub_furniture hu.toConforms, hlines, sub_repeatedSpace]
  exact hsolid.infix_trim hpassed

theorem graphic_not_space (c : Char) (h1 : '!' ≤ c) (h2 : c ≤ '~') :
    (asciiTables.isSpace c || Chunker.isLineBreak c) = false := by
  have hlow : 33 ≤ c.toNat := UInt32.le_iff_toNat_le.mp h1
  have hhigh : c.toNat ≤ 126 := UInt32.le_iff_toNat_le.mp h2
  have hbreak : Chunker.isLineBreak c = false := by
    simp only [Chunker.isLineBreak, List.contains_eq_mem, List.mem_cons, List.not_mem_nil,
      or_false, decide_eq_false_iff_not]
    omega
  simp [asciiTables.isSpace_graphic c h1 h2, hbreak]

/-- ASCII, with the line breaks beyond it. -/
def breakingTables : Tables :=
  { asciiTables with
    isSpace := fun c => asciiTables.isSpace c || Chunker.isLineBreak c
    isSpace_newline := rfl
    isSpace_blank := rfl
    isSpace_graphic := graphic_not_space }

theorem breakingTables_breaking : Breaking breakingTables where
  nfkc_nil := rfl
  nfkc_ne_nil := fun _ h => h
  nfkc_apart := fun a c b _ => by simp [breakingTables, asciiTables]
  nfkc_same := fun _ _ => rfl
  nfkc_special := fun _ _ h _ => h
  nfkc_digit := fun t ht c hc => by simpa [bearsDigit, breakingTables, asciiTables] using ht c hc
  newline_digit := rfl
  newline_letter := squareTables_conforms.newline_letter
  isSpace_tab := rfl
  isSpace_break := fun c h => by simp [breakingTables, h]

/-- Between a page number and its paragraph. -/
theorem stack_heading : clean breakingTables (trim breakingTables " Flue  gas ".toList) <:+:
    clean breakingTables ("Page 2\n".toList ++ " Flue  gas ".toList ++ "\nof the stacks".toList) := by
  have hplain : " Flue  gas ".toList.all (fun c => !Chunker.isLineBreak c) = true := by decide
  apply heading_in_text breakingTables_breaking
    ⟨fun c hc => by simpa using List.all_eq_true.mp hplain c hc, by decide, by decide⟩
  · decide +kernel
  · decide +kernel
  · decide +kernel

/-- The heading keeps a hyphen that its text has lost. -/
theorem hyphen_lost : CompleteLine [] "Flue Gas De-".toList "\nsulphurisation".toList ∧
    clean breakingTables (trim breakingTables "Flue Gas De-".toList) ≠ [] ∧
    ¬ clean breakingTables (trim breakingTables "Flue Gas De-".toList) <:+:
      clean breakingTables ("Flue Gas De-".toList ++ "\nsulphurisation".toList) := by
  have hplain : "Flue Gas De-".toList.all (fun c => !Chunker.isLineBreak c) = true := by decide
  refine ⟨⟨fun c hc => by simpa using List.all_eq_true.mp hplain c hc, by decide, by decide⟩, ?_, ?_⟩
  · decide +kernel
  · decide +kernel

end Headings

end TextCleaner

end KnowledgeBase.Artifact
