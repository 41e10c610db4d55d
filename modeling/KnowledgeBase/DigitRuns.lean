import KnowledgeBase.Cleaning
import KnowledgeBase.Runs

/-! The figures of a text through its cleaning. What is rewritten between digits leaves the runs of
digits alone; what is folded to a digit, or deleted between two, does not. -/

namespace KnowledgeBase.Artifact

open Regex Recognizers Splice Runs

namespace TextCleaner

def asciiOf (c : Char) : Option Char := if asciiDigit c then some c else none

variable (u : Tables)

/-- The ASCII form of a decimal digit. -/
def digitOf (c : Char) : Option Char :=
  if u.isDigit c then
    match u.nfkc [c] with
    | [d] => asciiOf d
    | _ => none
  else none

/-- The runs of decimal digits of the lines that are no page furniture. -/
def keptRuns (text : Text) : List Text :=
  ((text.splitOnP isBreak).filter fun line => !isFurniture u (preparedLine u line)).flatMap
    fun line => runs (line.map (digitOf u))

section Rewriting

variable {u} {t : Text} {pattern : Regex Char} {replace : Text → Text} {s e : Nat}

theorem same_splice {p : Nat} {es : List (Edit Char)} (h : Ordered t p es)
    (hes : ∀ e ∈ es, Same ((e.new ++ t.drop e.stop).map asciiOf) ((t.drop e.start).map asciiOf)) :
    Same ((splice t p es).map asciiOf) ((t.drop p).map asciiOf) := by
  induction es generalizing p with
  | nil => exact Same.refl _
  | cons e es ih =>
    obtain ⟨hp, hse, hrest⟩ := h
    obtain ⟨he, hes⟩ := List.forall_mem_cons.mp hes
    have hlen := hrest.le_length
    have hcut : t.drop p = (t.take e.start).drop p ++ t.drop e.start := by
      conv_lhs => rw [← List.take_append_drop e.start t]
      rw [List.drop_append_of_le_length (by rw [List.length_take]; omega)]
    have hnew : Same ((e.new ++ splice t e.stop es).map asciiOf)
        ((e.new ++ t.drop e.stop).map asciiOf) := by
      rw [List.map_append, List.map_append]
      exact (ih hrest hes).append_left _
    have happend : ∀ x y : Text, (x ++ y).map asciiOf = x.map asciiOf ++ y.map asciiOf :=
      fun _ _ => List.map_append
    rw [splice, hcut, List.append_assoc, happend _ (e.new ++ _), happend _ (t.drop e.start)]
    exact (hnew.trans he).append_left _

theorem sub_ordered (hr : 0 < pattern.minLen) (t : Text) : Ordered t 0
    ((pattern.finditer t).map fun m => ⟨m.1, m.2, replace (slice t m.1 m.2)⟩) := by
  have h : ∀ p ms, Apart t p ms →
      Ordered t p (ms.map fun m => ⟨m.1, m.2, replace (slice t m.1 m.2)⟩) := by
    intro p ms
    induction ms generalizing p with
    | nil => exact id
    | cons m ms ih => exact fun h => ⟨h.1, Nat.le_of_lt h.2.1, ih _ h.2.2⟩
  exact h 0 _ (finditer_apart hr)

theorem drop_eq_slice (h : s ≤ e) : t.drop s = slice t s e ++ t.drop e := by
  have hcut := List.take_append_drop (e - s) (t.drop s)
  rw [List.drop_drop, show s + (e - s) = e by omega] at hcut
  rw [slice, List.drop_take, hcut]

/-- A rewriting keeps the digits if it keeps them at each match. -/
theorem same_sub (hr : 0 < pattern.minLen) (h : ∀ s e, Matches t pattern s e →
    Same ((replace (slice t s e) ++ t.drop e).map asciiOf) ((slice t s e ++ t.drop e).map asciiOf)) :
    Same ((sub pattern replace t).map asciiOf) (t.map asciiOf) := by
  refine same_splice (sub_ordered hr t) fun edit hedit => ?_
  obtain ⟨m, hm, rfl⟩ := List.mem_map.mp hedit
  have hmatch := scan_matches hm
  rw [drop_eq_slice hmatch.le]
  exact h _ _ hmatch

theorem asciiOf_none {p : Char → Bool} {x : Text} (hp : ∀ c, p c = true → asciiDigit c = false)
    (hx : ∀ c ∈ x, p c = true) : ∀ v ∈ x.map asciiOf, v = none := by
  intro v hv
  obtain ⟨c, hc, rfl⟩ := List.mem_map.mp hv
  simp [asciiOf, hp c (hx c hc)]

theorem slice_within {p : Char → Bool} (h : Matches t pattern s e) (hp : Within p pattern) :
    ∀ c ∈ slice t s e, p c = true := by
  rw [slice, List.drop_take]
  exact h.within hp

theorem slice_ne_nil (hr : 0 < pattern.minLen) (h : Matches t pattern s e) : slice t s e ≠ [] := by
  have hmin := h.minLen_le
  have hlen := h.le_length
  apply List.ne_nil_of_length_pos
  rw [slice, List.length_drop, List.length_take]
  omega

def blank (c : Char) : Bool := c = ' ' || c = '\t'

theorem blank_not_digit (c : Char) (h : blank c = true) : asciiDigit c = false := by
  rcases Bool.or_eq_true_iff.mp h with h | h
  · rw [of_decide_eq_true h]
    rfl
  · rw [of_decide_eq_true h]
    rfl

theorem same_repeatedSpace (t : Text) :
    Same ((sub repeatedSpace (fun _ => [' ']) t).map asciiOf) (t.map asciiOf) := by
  refine same_sub (by decide) fun s e h => ?_
  have hblank := asciiOf_none blank_not_digit
    (slice_within h (p := blank) ⟨fun _ h => h, fun _ h => h, fun _ h => h⟩)
  have hne := slice_ne_nil (by decide) h
  rw [List.map_append, List.map_append]
  exact same_block (by simp) (by simp [asciiOf, asciiDigit]) (by simpa using hne) hblank _

theorem same_excessBlankLines (t : Text) :
    Same ((sub excessBlankLines (fun _ => ['\n', '\n']) t).map asciiOf) (t.map asciiOf) := by
  refine same_sub (by decide) fun s e h => ?_
  have hnewline := asciiOf_none (p := fun c => c = '\n') (by simp [asciiDigit])
    (slice_within h ⟨fun _ h => h, fun _ h => h, ⟨fun _ h => h, fun _ h => h⟩, trivial⟩)
  have hne := slice_ne_nil (by decide) h
  rw [List.map_append, List.map_append]
  exact same_block (by simp) (by simp [asciiOf, asciiDigit]) (by simpa using hne) hnewline _

/-- The blanks that go stand before a newline or at the end. -/
theorem same_trailingSpace (t : Text) :
    Same ((sub trailingSpace (fun _ => []) t).map asciiOf) (t.map asciiOf) := by
  refine same_sub (by decide) fun s e h => ?_
  have hblank := asciiOf_none blank_not_digit
    (slice_within h (p := blank) ⟨⟨fun _ h => h, fun _ h => h⟩, trivial⟩)
  have hend : (t.drop e).map asciiOf = [] ∨ ∃ l, (t.drop e).map asciiOf = none :: l := by
    cases h with
    | seq _ hlook =>
    cases hlook with
    | look hp =>
      cases hdrop : t.drop e with
      | nil => exact .inl rfl
      | cons c rest =>
        rw [← List.head?_drop, hdrop] at hp
        have hc : c = '\n' := by simpa using hp
        exact .inr ⟨rest.map asciiOf, by rw [hc]; rfl⟩
  rw [List.nil_append, List.map_append]
  exact (same_block_nil hblank hend).symm

/-- What the pattern of a broken word matches. -/
theorem lineBreakHyphen_slice (h : Matches t (lineBreakHyphen u) s e) : ∃ w a, e = s + 4 ∧
    u.isWord w = true ∧ 'a' ≤ a ∧ a ≤ 'z' ∧ slice t s e = [w, '-', '\n', a] ∧
      t.drop s = w :: '-' :: '\n' :: a :: t.drop e := by
  cases h with
  | seq h1 h =>
  cases h with
  | seq h2 h =>
  cases h with
  | seq h3 h =>
  cases h with
  | seq h4 h =>
  cases h
  obtain ⟨rfl, w, hw, hd1⟩ := matches_cls_iff.mp h1
  obtain ⟨rfl, c, hc, hd2⟩ := matches_cls_iff.mp h2
  obtain ⟨rfl, d, hd, hd3⟩ := matches_cls_iff.mp h3
  obtain ⟨rfl, a, ha, hd4⟩ := matches_cls_iff.mp h4
  obtain rfl : c = '-' := by simpa using hc
  obtain rfl : d = '\n' := by simpa using hd
  have hdrop : t.drop s = w :: '-' :: '\n' :: a :: t.drop (s + 1 + 1 + 1 + 1) := by
    rw [hd1, hd2, hd3, hd4]
  have ha : 'a' ≤ a ∧ a ≤ 'z' := by simpa using ha
  refine ⟨w, a, rfl, hw, ha.1, ha.2, ?_, hdrop⟩
  rw [slice, List.drop_take, hdrop, show s + 1 + 1 + 1 + 1 - s = 4 by omega]
  rfl

/-- A rejoined word keeps what stands before its hyphen, and a letter follows. -/
theorem same_lineBreakHyphen (t : Text) :
    Same ((sub (lineBreakHyphen u) (fun m => m.take 1 ++ m.drop 3) t).map asciiOf)
      (t.map asciiOf) := by
  refine same_sub (by simp [lineBreakHyphen, minLen, concat, lit]) fun s e h => ?_
  obtain ⟨w, a, -, -, ha, -, hslice, -⟩ := lineBreakHyphen_slice h
  have hletter : asciiOf a = none := by
    have hnine : ¬ a ≤ '9' := fun h => absurd (le_trans ha h) (by decide)
    simp [asciiOf, asciiDigit, hnine]
  have hhyphen : asciiOf '-' = none := rfl
  have hnewline : asciiOf '\n' = none := rfl
  have htail := same_block (β := Char) (x := [none]) (y := [none, none, none]) (by simp) (by simp)
    (by simp) (by simp) ((t.drop e).map asciiOf)
  rw [hslice]
  change Same (asciiOf w :: asciiOf a :: _) (asciiOf w :: asciiOf '-' :: asciiOf '\n' ::
    asciiOf a :: _)
  rw [hletter, hhyphen, hnewline]
  exact htail.append_left [asciiOf w]

theorem space_not_digit {c : Char} (h : u.isSpace c = true) : asciiDigit c = false := by
  by_contra hd
  have hd : asciiDigit c = true := by simpa using hd
  simp only [asciiDigit, Bool.and_eq_true, decide_eq_true_eq] at hd
  rw [u.isSpace_graphic c (le_trans (by decide) hd.1) (le_trans hd.2 (by decide))] at h
  cases h

theorem runs_trim (t : Text) : runs ((trim u t).map asciiOf) = runs (t.map asciiOf) := by
  have hnone : ∀ t : Text, ∀ v ∈ (t.takeWhile u.isSpace).map asciiOf, v = none := fun t =>
    asciiOf_none (fun c => space_not_digit) fun c hc => List.mem_takeWhile_imp hc
  have hfront : ∀ t : Text, runs ((t.dropWhile u.isSpace).map asciiOf) = runs (t.map asciiOf) := by
    intro t
    conv_rhs => rw [← List.takeWhile_append_dropWhile (p := u.isSpace) (l := t), List.map_append]
    by_cases hnil : (t.takeWhile u.isSpace).map asciiOf = []
    · rw [hnil, List.nil_append]
    · change runsFrom [] _ = runsFrom [] _
      rw [runsFrom_block hnil (hnone t)]
      rfl
  have hback : ∀ t : Text, runs (((t.reverse.dropWhile u.isSpace).reverse).map asciiOf) =
      runs (t.map asciiOf) := by
    intro t
    have hsplit : t = (t.reverse.dropWhile u.isSpace).reverse ++
        (t.reverse.takeWhile u.isSpace).reverse := by
      rw [← List.reverse_append, List.takeWhile_append_dropWhile, List.reverse_reverse]
    conv_rhs => rw [hsplit, List.map_append]
    have hlast : Same ((t.reverse.takeWhile u.isSpace).reverse.map asciiOf ++ []) [] :=
      same_block_nil (fun v hv => hnone t.reverse v (by simpa using hv)) (.inl rfl)
    rw [List.append_nil] at hlast
    have h := hlast.append_left ((t.reverse.dropWhile u.isSpace).reverse.map asciiOf)
    rw [List.append_nil] at h
    exact h.symm.runs
  rw [trim, strip, hback, hfront]

theorem runs_keepLines (furniture : Text → Bool) (lines : List Text) :
    runs ((keepLines furniture lines).map asciiOf) =
      (lines.filter fun line => !furniture line).flatMap fun line => runs (line.map asciiOf) := by
  induction lines with
  | nil => rfl
  | cons line lines ih =>
    by_cases hnil : lines = []
    · subst hnil
      by_cases hf : furniture line = true <;> simp [keepLines, hf, runs, runsFrom, close]
    · rw [keepLines_cons hnil]
      by_cases hf : furniture line = true
      · simp [hf, ih]
      · have hnewline : asciiOf '\n' = none := rfl
        rw [if_neg hf, List.map_append, List.map_cons, hnewline]
        change runsFrom [] _ = _
        rw [runsFrom_none, ih]
        simp [hf, runs]

theorem clean_eq (text : Text) : clean u text = if text = [] then [] else
    trim u (sub excessBlankLines (fun _ => ['\n', '\n']) (sub trailingSpace (fun _ => [])
      (sub repeatedSpace (fun _ => [' ']) (sub (lineBreakHyphen u) (fun m => m.take 1 ++ m.drop 3)
        (sub (pageFurniture u) (fun _ => []) (prepared u text)))))) := rfl

/-- The runs of digits of the cleaned text are those of its lines as they are prepared. -/
theorem runs_clean (hu : Conforms u) (text : Text) : runs ((clean u text).map asciiOf) =
    ((text.splitOnP isBreak).filter fun line => !isFurniture u (preparedLine u line)).flatMap
      fun line => runs ((preparedLine u line).map asciiOf) := by
  have hfilter : ∀ (lines : List Text) (p : Text → Bool) (g : Text → List Text),
      (lines.filter p).flatMap g = lines.flatMap fun l => if p l = true then g l else [] := by
    intro lines p g
    induction lines with
    | nil => rfl
    | cons l lines ih => by_cases hp : p l = true <;> simp [hp, ih]
  have hlines := flatMap_prepared hu (g := fun l =>
    if (!isFurniture u l) = true then runs (l.map asciiOf) else []) (by simp [runs, runsFrom, close])
    text
  by_cases hnil : text = []
  · rw [clean_eq, if_pos hnil, hfilter, ← hlines, hnil, prepared, hu.nfkc_nil]
    simp [scrub, newlines, runs, runsFrom, close]
  · rw [clean_eq, if_neg hnil, runs_trim, (same_excessBlankLines _).runs,
      (same_trailingSpace _).runs, (same_repeatedSpace _).runs, (same_lineBreakHyphen _).runs,
      sub_furniture hu, runs_keepLines, hfilter, hlines, hfilter]

end Rewriting

section Folding

variable {u} {line : Text} {c : Char}

theorem deleted_not_digit (h : deleted c = true) : asciiDigit c = false := by
  by_contra hd
  have hd : asciiDigit c = true := by simpa using hd
  have hbounds : 48 ≤ c.toNat ∧ c.toNat ≤ 57 := by
    simp only [asciiDigit, Bool.and_eq_true, decide_eq_true_eq] at hd
    exact ⟨UInt32.le_iff_toNat_le.mp hd.1, UInt32.le_iff_toNat_le.mp hd.2⟩
  rcases Bool.or_eq_true_iff.mp h with h | h
  · rw [List.contains_iff_mem] at h
    have hall : invisible.all (fun c => !asciiDigit c) = true := by decide +kernel
    simpa [hd] using List.all_eq_true.mp hall c h
  · simp only [isControl, Bool.and_eq_true, Bool.or_eq_true, decide_eq_true_eq] at h
    omega

theorem digitOf_spec {d : Char} (h : digitOf u c = some d) :
    u.nfkc [c] = [d] ∧ asciiOf d = some d ∧ bearsDigit u c = true := by
  unfold digitOf at h
  split at h
  · split at h
    · rename_i x hx
      have hd : asciiDigit x = true := by
        by_contra hno
        simp [asciiOf, hno] at h
      have hsome : asciiOf x = some x := by rw [asciiOf, if_pos hd]
      obtain rfl : x = d := Option.some.inj (hsome.symm.trans h)
      exact ⟨hx, hsome, by simp [bearsDigit, hx, hd]⟩
    · cases h
  · cases h

theorem digitOf_none (h : bearsDigit u c = false) : digitOf u c = none := by
  cases hd : digitOf u c with
  | none => rfl
  | some d =>
    rw [(digitOf_spec hd).2.2] at h
    cases h

theorem digitOf_deleted (hu : Conforms u) (h : deleted c = true) : digitOf u c = none := by
  apply digitOf_none
  rw [bearsDigit, hu.nfkc_same c (.inl (by rw [special, h, Bool.or_true]))]
  simp [deleted_not_digit h]

theorem filterMap_asciiOf_nil {t : Text} (h : ∀ c ∈ t, asciiDigit c = false) :
    t.filterMap asciiOf = [] :=
  List.filterMap_eq_nil_iff.mpr fun c hc => by simp [asciiOf, h c hc]

/-- The digits of a line are those its characters fold to. -/
theorem digits_nfkc (hu : Conforms u) (line : Text) : (u.nfkc line).filterMap asciiOf =
    line.flatMap fun c => (u.nfkc [c]).filterMap asciiOf := by
  have hplain : ∀ c, bearsDigit u c = false → (u.nfkc [c]).filterMap asciiOf = [] := by
    intro c hc
    refine filterMap_asciiOf_nil fun d hd => ?_
    simpa using List.any_eq_false.mp hc d hd
  have hflat : ∀ x : Text, (∀ c ∈ x, bearsDigit u c = false) →
      (x.flatMap fun c => (u.nfkc [c]).filterMap asciiOf) = [] := by
    intro x hx
    exact List.flatMap_eq_nil_iff.mpr fun c hc => hplain c (hx c hc)
  induction hn : line.length using Nat.strong_induction_on generalizing line with
  | _ n ih =>
    by_cases hbears : ∃ b ∈ line, bearsDigit u b = true
    · obtain ⟨x, b, y, rfl, hb, hx⟩ := exists_first hbears
      have hy := ih y.length (by simp at hn; omega) y rfl
      rw [hu.nfkc_apart x b y (by simp [standsAlone, hb]), List.filterMap_append,
        List.filterMap_append, hy, filterMap_asciiOf_nil (hu.nfkc_digit x hx), List.flatMap_append,
        hflat x hx, List.flatMap_cons]
      rfl
    · have hnone : ∀ c ∈ line, bearsDigit u c = false := fun c hc => by
        by_contra h
        exact hbears ⟨c, hc, by simpa using h⟩
      rw [filterMap_asciiOf_nil (hu.nfkc_digit line hnone), hflat line hnone]

/-- Folding never loses a digit, and adds none exactly where only decimal digits fold to one. -/
theorem length_digits (hu : Conforms u) (line : Text) :
    (line.filterMap (digitOf u)).length ≤ ((preparedLine u line).filterMap asciiOf).length ∧
      ((line.filterMap (digitOf u)).length = ((preparedLine u line).filterMap asciiOf).length ↔
        ∀ c ∈ line, bearsDigit u c = true → (digitOf u c).isSome = true) := by
  have hkeep : (preparedLine u line).filterMap asciiOf = (u.nfkc line).filterMap asciiOf := by
    rw [preparedLine, List.filterMap_filter]
    refine List.filterMap_congr fun c _ => ?_
    by_cases hc : deleted c = true
    · simp [hc, asciiOf, deleted_not_digit hc]
    · simp [hc]
  rw [hkeep, digits_nfkc hu]
  clear hkeep
  induction line with
  | nil => simp
  | cons c line ih =>
    rw [List.flatMap_cons, List.length_append, List.forall_mem_cons]
    cases hd : digitOf u c with
    | some d =>
      obtain ⟨hfold, hascii, -⟩ := digitOf_spec hd
      have hone : ((u.nfkc [c]).filterMap asciiOf).length = 1 := by simp [hfold, hascii]
      rw [List.filterMap_cons_some hd, List.length_cons, hone]
      refine ⟨by omega, ?_⟩
      rw [← ih.2]
      simp only [Option.isSome_some, implies_true, true_and]
      omega
    | none =>
      rw [List.filterMap_cons_none hd]
      refine ⟨by omega, ?_⟩
      by_cases hb : bearsDigit u c = true
      · obtain ⟨x, hx, hdigit⟩ := List.any_eq_true.mp hb
        have hpos : 0 < ((u.nfkc [c]).filterMap asciiOf).length :=
          List.length_pos_of_mem (List.mem_filterMap.mpr ⟨x, hx, by rw [asciiOf, if_pos hdigit]⟩)
        simp only [hb, Option.isSome_none, Bool.false_eq_true, imp_false, not_true, false_and,
          iff_false]
        omega
      · have hany : (u.nfkc [c]).any asciiDigit = false := by
          rwa [bearsDigit, Bool.not_eq_true] at hb
        have hzero : (u.nfkc [c]).filterMap asciiOf = [] :=
          filterMap_asciiOf_nil fun d hd => by simpa using List.any_eq_false.mp hany d hd
        rw [hzero, ← ih.2]
        simp [hb]

/-- Where only decimal digits fold to one, the digits of the line stand as they did, but for what is
deleted between them. -/
theorem same_preparedLine (hu : Conforms u) (line : Text)
    (hdigits : ∀ c ∈ line, bearsDigit u c = true → (digitOf u c).isSome = true) :
    Same ((preparedLine u line).map asciiOf)
      ((line.filter fun c => !deleted c).map (digitOf u)) := by
  have hplain : ∀ x : Text, (∀ c ∈ x, (bearsDigit u c || deleted c) = false) → x ≠ [] →
      ∀ z, Same ((preparedLine u x).map asciiOf ++ z)
        ((x.filter fun c => !deleted c).map (digitOf u) ++ z) := by
    intro x hx hne
    have hdeleted : ∀ c ∈ x, deleted c = false := fun c hc => (Bool.or_eq_false_iff.mp (hx c hc)).2
    have hbears : ∀ c ∈ x, bearsDigit u c = false := fun c hc =>
      (Bool.or_eq_false_iff.mp (hx c hc)).1
    have hfold : preparedLine u x = u.nfkc x := by
      refine List.filter_eq_self.mpr fun c hc => ?_
      by_contra hdel
      have hdel : deleted c = true := by simpa using hdel
      have hmem := hu.nfkc_special x c hc (by rw [special, hdel, Bool.or_true])
      rw [hdeleted c hmem] at hdel
      cases hdel
    have hkeep : (x.filter fun c => !deleted c) = x :=
      List.filter_eq_self.mpr fun c hc => by rw [hdeleted c hc]; rfl
    rw [hfold, hkeep]
    refine same_block (by simpa using hu.nfkc_ne_nil x hne) ?_ (by simpa using hne) ?_
    · exact asciiOf_none (p := fun c => !asciiDigit c) (by simp)
        (fun c hc => by simpa using hu.nfkc_digit x hbears c hc)
    · intro v hv
      obtain ⟨c, hc, rfl⟩ := List.mem_map.mp hv
      exact digitOf_none (hbears c hc)
  induction hn : line.length using Nat.strong_induction_on generalizing line with
  | _ n ih =>
    by_cases hstop : ∃ b ∈ line, (bearsDigit u b || deleted b) = true
    · obtain ⟨x, b, y, rfl, hb, hx⟩ := exists_first hstop
      have hy := ih y.length (by simp at hn; omega) y
        (fun c hc => hdigits c (by simp [hc])) rfl
      have halone : standsAlone u b = true := by
        rcases Bool.or_eq_true_iff.mp hb with hb | hb
        · rw [standsAlone, hb, Bool.or_true, Bool.true_or]
        · rw [standsAlone, special, hb, Bool.or_true, Bool.true_or, Bool.true_or]
      have hsplit : preparedLine u (x ++ b :: y) =
          preparedLine u x ++ (preparedLine u [b] ++ preparedLine u y) := by
        rw [preparedLine, hu.nfkc_apart x b y halone, List.filter_append, List.filter_append,
          List.append_assoc]
        rfl
      have hone : (preparedLine u [b]).map asciiOf =
          ([b].filter fun c => !deleted c).map (digitOf u) := by
        by_cases hdel : deleted b = true
        · have hspecial : special b = true := by rw [special, hdel, Bool.or_true]
          rw [preparedLine, hu.nfkc_same b (.inl hspecial)]
          simp [hdel]
        · have hbears : bearsDigit u b = true := by
            simpa [hdel] using hb
          obtain ⟨d, hd⟩ := Option.isSome_iff_exists.mp (hdigits b (by simp) hbears)
          obtain ⟨hfold, hascii, -⟩ := digitOf_spec hd
          have hdigit : asciiDigit d = true := by
            by_contra hno
            simp [asciiOf, hno] at hascii
          have hstay : deleted d = false := by
            by_contra hdd
            rw [deleted_not_digit (by simpa using hdd)] at hdigit
            cases hdigit
          rw [preparedLine, hfold]
          simp [hstay, hdel, hascii, hd]
      have htail : Same ((preparedLine u [b] ++ preparedLine u y).map asciiOf)
          (([b].filter fun c => !deleted c).map (digitOf u) ++
            (y.filter fun c => !deleted c).map (digitOf u)) := by
        rw [List.map_append, hone]
        exact hy.append_left _
      have hright : ((x ++ b :: y).filter fun c => !deleted c).map (digitOf u) =
          (x.filter fun c => !deleted c).map (digitOf u) ++
            (([b].filter fun c => !deleted c).map (digitOf u) ++
              (y.filter fun c => !deleted c).map (digitOf u)) := by
        rw [← List.map_append, ← List.map_append, ← List.filter_append, ← List.filter_append]
        rfl
      rw [hsplit, List.map_append, hright]
      refine (htail.append_left _).trans ?_
      by_cases hnil : x = []
      · rw [hnil, preparedLine, hu.nfkc_nil]
        exact Same.refl _
      · exact hplain x hx hnil _
    · have hnone : ∀ c ∈ line, (bearsDigit u c || deleted c) = false := fun c hc => by
        by_contra h
        rw [Bool.not_eq_false] at h
        exact hstop ⟨c, hc, h⟩
      by_cases hnil : line = []
      · rw [hnil, preparedLine, hu.nfkc_nil]
        exact Same.refl _
      · have h := hplain line hnone hnil []
        rwa [List.append_nil, List.append_nil] at h

end Folding

section Figures

variable {u}

theorem eq_of_sum_eq {α : Type*} {l : List α} {f g : α → Nat} (hle : ∀ a ∈ l, f a ≤ g a)
    (hsum : (l.map f).sum = (l.map g).sum) : ∀ a ∈ l, f a = g a := by
  induction l with
  | nil => exact nofun
  | cons a l ih =>
    obtain ⟨ha, hl⟩ := List.forall_mem_cons.mp hle
    have hrest := List.sum_le_sum hl
    rw [List.map_cons, List.map_cons, List.sum_cons, List.sum_cons] at hsum
    exact List.forall_mem_cons.mpr ⟨by omega, ih hl (by omega)⟩

theorem length_flatten_flatMap {α β : Type*} (l : List α) (f : α → List (List β)) :
    (l.flatMap f).flatten.length = (l.map fun a => (f a).flatten.length).sum := by
  induction l with
  | nil => rfl
  | cons a l ih => simp only [List.flatMap_cons, List.flatten_append, List.length_append, ih,
      List.map_cons, List.sum_cons]

theorem length_flatten_runs (l : List (Option Char)) : (runs l).flatten.length =
    (l.filterMap id).length := by
  rw [runs, flatten_runsFrom, List.nil_append]

variable (u) in
/-- In the line only decimal digits fold to a digit, and no two have only deleted characters between
them. -/
def FiguresStand (line : Text) : Prop :=
  (∀ c ∈ line, bearsDigit u c = true → (digitOf u c).isSome = true) ∧
    joins (digitOf u) deleted line = false

/-- Cleaning keeps the runs of digits exactly where they stand in every line that is not page
furniture. -/
theorem digit_runs_iff (hu : Conforms u) (text : Text) :
    runs ((clean u text).map asciiOf) = keptRuns u text ↔ ∀ line ∈ text.splitOnP isBreak,
      isFurniture u (preparedLine u line) = false → FiguresStand u line := by
  rw [runs_clean hu, keptRuns]
  have hmem : ∀ line, line ∈ ((text.splitOnP isBreak).filter fun line =>
      !isFurniture u (preparedLine u line)) ↔ line ∈ text.splitOnP isBreak ∧
        isFurniture u (preparedLine u line) = false := by
    intro line
    rw [List.mem_filter, Bool.not_eq_true']
  have hruns : ∀ line, (∀ c ∈ line, bearsDigit u c = true → (digitOf u c).isSome = true) →
      Joined (joins (digitOf u) deleted line) (runs ((preparedLine u line).map asciiOf))
        (runs (line.map (digitOf u))) := by
    intro line h
    rw [(same_preparedLine hu line h).runs]
    exact runs_filter (fun c hc => digitOf_deleted hu hc) line
  constructor
  · intro heq
    -- first the digits are counted, then the runs
    have hdigits : ∀ line ∈ (text.splitOnP isBreak).filter fun line =>
        !isFurniture u (preparedLine u line),
        ∀ c ∈ line, bearsDigit u c = true → (digitOf u c).isSome = true := by
      have hcount := congrArg (fun r => r.flatten.length) heq
      simp only [length_flatten_flatMap, length_flatten_runs, List.filterMap_map,
        Function.id_comp] at hcount
      intro line hline
      exact (length_digits hu line).2.mp
        (eq_of_sum_eq (fun line _ => (length_digits hu line).1) hcount.symm line hline)
    have hcount := congrArg List.length heq
    rw [List.length_flatMap, List.length_flatMap] at hcount
    have hle := fun line hline => (hruns line (hdigits line hline)).length_le
    intro line hline hkept
    have hin := (hmem line).mpr ⟨hline, hkept⟩
    refine ⟨hdigits line hin, ?_⟩
    by_contra hjoins
    have hr := hruns line (hdigits line hin)
    rw [Bool.not_eq_false] at hjoins
    rw [hjoins] at hr
    exact absurd (eq_of_sum_eq hle hcount line hin) (Nat.ne_of_lt hr)
  · intro h
    refine List.flatMap_congr fun line hline => ?_
    obtain ⟨hdigits, hjoins⟩ := h line ((hmem line).mp hline).1 ((hmem line).mp hline).2
    have hr := hruns line hdigits
    rw [hjoins] at hr
    exact hr

instance (line : Text) : Decidable (FiguresStand u line) :=
  decidable_of_iff ((line.all fun c => !bearsDigit u c || (digitOf u c).isSome) = true ∧
    joins (digitOf u) deleted line = false) (by simp [FiguresStand, imp_iff_not_or])

/-- ASCII and the superscript two, which folds to the digit. -/
def squareTables : Tables :=
  { asciiTables with nfkc := fun t => t.flatMap fun c => if c = '²' then ['2'] else [c] }

theorem squareTables_conforms : Conforms squareTables where
  nfkc_nil := rfl
  nfkc_ne_nil := by
    intro t ht
    obtain ⟨c, t, rfl⟩ := List.exists_cons_of_ne_nil ht
    simp only [squareTables, List.flatMap_cons]
    split <;> simp
  nfkc_apart := fun a c b _ => by simp [squareTables]
  nfkc_same := by
    intro c hc
    have hne : c ≠ '²' := by
      rintro rfl
      exact absurd hc (by decide)
    simp [squareTables, hne]
  nfkc_special := by
    intro t c hc hspecial
    obtain ⟨a, ha, hc⟩ := List.mem_flatMap.mp hc
    split at hc
    · rw [List.mem_singleton.mp hc] at hspecial
      exact absurd hspecial (by decide)
    · rwa [List.mem_singleton.mp hc]
  nfkc_digit := by
    intro t ht c hc
    obtain ⟨a, ha, hc⟩ := List.mem_flatMap.mp hc
    have hnone := List.any_eq_false.mp (ht a ha) c (by simpa [squareTables] using hc)
    simpa using hnone
  newline_digit := rfl
  newline_letter := by
    intro c hc
    have hall : ∀ n < 128, asciiLetter (Char.ofNat n) = true →
        asciiTables.sameLetter (Char.ofNat n) '\n' = false := by decide +kernel
    have hlt : c.toNat < 128 := by
      simp only [asciiLetter, asciiUpper, Bool.or_eq_true, Bool.and_eq_true, decide_eq_true_eq] at hc
      have hz : c ≤ 'z' := hc.elim (fun h => le_trans h.2 (by decide)) (·.2)
      exact Nat.lt_of_le_of_lt (UInt32.le_iff_toNat_le.mp hz) (by decide)
    have h := hall c.toNat hlt
    rw [Char.ofNat_toNat] at h
    exact h hc

def emissions : Text := "SO2: 341\nPage 3\nNOx: 298".toList

/-- The number of the page goes, and nothing else. -/
theorem emissions_figures : runs ((clean squareTables emissions).map asciiOf) =
    keptRuns squareTables emissions := by
  refine (digit_runs_iff squareTables_conforms emissions).mpr ?_
  have hlines : emissions.splitOnP isBreak =
      ["SO2: 341".toList, "Page 3".toList, "NOx: 298".toList] := by decide +kernel
  have hpage : isFurniture squareTables (preparedLine squareTables "Page 3".toList) = true := by
    decide +kernel
  rw [hlines]
  intro line hline hkept
  simp only [List.mem_cons, List.not_mem_nil, or_false] at hline
  rcases hline with rfl | rfl | rfl
  · decide +kernel
  · rw [hpage] at hkept
    cases hkept
  · decide +kernel

/-- Ten squared reads a hundred and two. -/
theorem square_is_a_digit : runs ((clean squareTables "10² km".toList).map asciiOf) ≠
    keptRuns squareTables "10² km".toList := by
  decide +kernel

end Figures

end TextCleaner

end KnowledgeBase.Artifact
