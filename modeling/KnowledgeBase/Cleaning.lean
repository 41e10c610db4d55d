import KnowledgeBase.Normalization

/-! What cleaning does to a text, line by line. The characters it deletes and the line breaks stand
alone in a normalization, so a line can be folded by itself; and page furniture is taken out as whole
lines. -/

namespace KnowledgeBase.Artifact

open Regex Recognizers Splice

namespace TextCleaner

def isBreak (c : Char) : Bool := ['\n', '\r', '\x0b', '\x0c'].contains c

/-- A character cleaning takes out wherever it stands. -/
def deleted (c : Char) : Bool := invisible.contains c || (isControl c && !isBreak c)

def special (c : Char) : Bool := isBreak c || deleted c

variable (u : Tables)

/-- The character folds to something with an ASCII digit. -/
def bearsDigit (c : Char) : Bool := (u.nfkc [c]).any asciiDigit

/-- Nothing composes with the character, and it is folded by itself. -/
def standsAlone (c : Char) : Bool := special c || bearsDigit u c || u.isSpace c

/-- What the Unicode standard says of the tables: a compatibility normalization empties no text, folds
what stands alone apart from the rest, leaves line breaks, the deleted characters and ASCII digits as
they are and makes none of them of anything else; and a newline is no digit and no letter. -/
structure Conforms : Prop where
  nfkc_nil : u.nfkc [] = []
  nfkc_ne_nil : ∀ t, t ≠ [] → u.nfkc t ≠ []
  nfkc_apart : ∀ a c b, standsAlone u c = true →
    u.nfkc (a ++ c :: b) = u.nfkc a ++ u.nfkc [c] ++ u.nfkc b
  nfkc_same : ∀ c, special c = true ∨ asciiDigit c = true → u.nfkc [c] = [c]
  nfkc_special : ∀ t, ∀ c ∈ u.nfkc t, special c = true → c ∈ t
  nfkc_digit : ∀ t, (∀ c ∈ t, bearsDigit u c = false) → ∀ c ∈ u.nfkc t, asciiDigit c = false
  newline_digit : u.isDigit '\n' = false
  newline_letter : ∀ c, asciiLetter c = true → u.sameLetter c '\n' = false

/-- The text without what is deleted, with its line breaks. -/
def scrub (text : Text) : Text :=
  ((text.filter fun c => !invisible.contains c).map lineBreakControl).filter fun c => !isControl c

/-- The text before any line of it is looked at. -/
def prepared (text : Text) : Text := newlines (scrub (u.nfkc text))

/-- A line of the text as it is prepared. -/
def preparedLine (line : Text) : Text := (u.nfkc line).filter fun c => !deleted c

/-- The pattern matches the whole of the line. -/
def isFurniture (line : Text) : Bool := (ends line (pageFurniture u) 0).contains line.length

/-- The lines that are no furniture, each with its newline. -/
def keepLines (furniture : Text → Bool) : List Text → Text
  | [] => []
  | [line] => if furniture line then [] else line
  | line :: lines =>
    if furniture line then keepLines furniture lines
    else line ++ '\n' :: keepLines furniture lines

section Lines

variable {u} {t line x y : Text} {b c : Char}

theorem exists_first {α : Type*} {p : α → Bool} {l : List α} (h : ∃ b ∈ l, p b = true) :
    ∃ x b y, l = x ++ b :: y ∧ p b = true ∧ ∀ c ∈ x, p c = false := by
  obtain ⟨b, hb⟩ := Option.isSome_iff_exists.mp (List.find?_isSome.mpr h)
  obtain ⟨hp, x, y, rfl, hx⟩ := List.find?_eq_some_iff_append.mp hb
  exact ⟨x, b, y, rfl, hp, fun c hc => by simpa using hx c hc⟩

theorem scrub_append (x y : Text) : scrub (x ++ y) = scrub x ++ scrub y := by
  simp [scrub]

/-- Within a line only what is deleted goes. -/
theorem scrub_line (h : ∀ c ∈ t, isBreak c = false) : scrub t = t.filter fun c => !deleted c := by
  have hone : ∀ c, isBreak c = false → lineBreakControl c = c := by
    intro c hc
    rw [lineBreakControl, if_neg]
    rintro (hn | hn)
    · rw [show c = '\x0b' from Char.toNat_inj.mp hn] at hc
      exact absurd hc (by decide)
    · rw [show c = '\x0c' from Char.toNat_inj.mp hn] at hc
      exact absurd hc (by decide)
  have hmap : (t.filter fun c => !invisible.contains c).map lineBreakControl =
      t.filter fun c => !invisible.contains c :=
    (List.map_congr_left fun c hc => hone c (h c (List.mem_filter.mp hc).1)).trans (List.map_id _)
  rw [scrub, hmap, List.filter_filter]
  refine List.filter_congr fun c hc => ?_
  simp [deleted, h c hc, Bool.and_comm]

theorem scrub_break (h : isBreak b = true) : ∃ b', scrub [b] = [b'] ∧ (b' = '\n' ∨ b' = '\r') := by
  have hall : ['\n', '\r', '\x0b', '\x0c'].all
      (fun b => scrub [b] = ['\n'] || scrub [b] = ['\r']) = true := by decide +kernel
  rw [isBreak, List.contains_iff_mem] at h
  have hb := List.all_eq_true.mp hall b h
  rcases Bool.or_eq_true_iff.mp hb with hb | hb
  · exact ⟨'\n', by simpa using hb, .inl rfl⟩
  · exact ⟨'\r', by simpa using hb, .inr rfl⟩

theorem nfkc_noBreak (hu : Conforms u) (h : ∀ c ∈ line, isBreak c = false) :
    ∀ c ∈ u.nfkc line, isBreak c = false := by
  intro c hc
  by_contra hb
  have hb : isBreak c = true := by simpa using hb
  have hmem := hu.nfkc_special line c hc (by rw [special, hb, Bool.true_or])
  rw [h c hmem] at hb
  cases hb

theorem preparedLine_noBreak (hu : Conforms u) (h : ∀ c ∈ line, isBreak c = false) :
    ∀ c ∈ preparedLine u line, isBreak c = false :=
  fun c hc => nfkc_noBreak hu h c (List.mem_filter.mp hc).1

theorem not_newline (h : isBreak c = false) : c ≠ '\n' ∧ c ≠ '\r' := by
  constructor <;> rintro rfl <;> exact absurd h (by decide)

theorem newlines_line (h : ∀ c ∈ t, c ≠ '\r') : newlines t = t := by
  fun_induction newlines t with
  | case1 => rfl
  | case2 text ih => exact absurd rfl (h '\r' (by simp))
  | case3 c text _ ih =>
    rw [if_neg (h c (by simp)), ih fun d hd => h d (by simp [hd])]

/-- A carriage return and its newline are one break, so what lies between breaks is the same but for
an empty line. -/
theorem flatMap_newlines {γ : Type*} {g : Text → List γ} (hg : g [] = []) (line t : Text)
    (hline : ∀ c ∈ line, c ≠ '\n' ∧ c ≠ '\r') :
    ((line ++ newlines t).splitOnP (· == '\n')).flatMap g =
      ((line ++ t).splitOnP fun c => c == '\n' || c == '\r').flatMap g := by
  have hl : ∀ line : Text, (∀ c ∈ line, c ≠ '\n' ∧ c ≠ '\r') →
      (∀ c ∈ line, (c == '\n') = false) ∧ ∀ c ∈ line, (c == '\n' || c == '\r') = false := by
    intro line h
    exact ⟨fun c hc => by simpa using (h c hc).1, fun c hc => by simpa using h c hc⟩
  fun_induction newlines t generalizing line with
  | case1 =>
    rw [List.append_nil, List.splitOnP_eq_singleton (hl line hline).1,
      List.splitOnP_eq_singleton (hl line hline).2]
  | case2 text ih =>
    have hrest := ih [] nofun
    rw [List.nil_append, List.nil_append] at hrest
    rw [List.splitOnP_append_cons_of_forall_mem (hl line hline).1 _ rfl,
      List.splitOnP_append_cons_of_forall_mem (hl line hline).2 _ rfl,
      List.flatMap_cons, List.flatMap_cons, hrest]
    have hskip : ('\n' :: text).splitOnP (fun c => c == '\n' || c == '\r') =
        [] :: text.splitOnP fun c => c == '\n' || c == '\r' :=
      List.splitOnP_append_cons_of_forall_mem (nofun : ∀ c ∈ ([] : Text), _) _ rfl _
    rw [hskip, List.flatMap_cons, hg, List.nil_append]
  | case3 c text _ ih =>
    by_cases hc : c = '\n' ∨ c = '\r'
    · have hrest := ih [] nofun
      rw [List.nil_append, List.nil_append] at hrest
      have hone : (if c = '\r' then '\n' else c) = '\n' := by
        rcases hc with rfl | rfl <;> rfl
      rw [hone, List.splitOnP_append_cons_of_forall_mem (hl line hline).1 _ rfl,
        List.splitOnP_append_cons_of_forall_mem (hl line hline).2 c (by simpa using hc),
        List.flatMap_cons, List.flatMap_cons, hrest]
    · have hlonger : ∀ d ∈ line ++ [c], d ≠ '\n' ∧ d ≠ '\r' := by
        intro d hd
        rcases List.mem_append.mp hd with hd | hd
        · exact hline d hd
        · rw [List.mem_singleton.mp hd]
          exact not_or.mp hc
      have hrest := ih (line ++ [c]) hlonger
      rw [if_neg (not_or.mp hc).2]
      simpa only [List.append_assoc, List.singleton_append] using hrest

/-- The text is prepared line by line. -/
theorem flatMap_prepared {γ : Type*} (hu : Conforms u) {g : Text → List γ} (hg : g [] = [])
    (text : Text) : ((prepared u text).splitOnP (· == '\n')).flatMap g =
      (text.splitOnP isBreak).flatMap fun line => g (preparedLine u line) := by
  have hnewlines := flatMap_newlines hg [] (scrub (u.nfkc text)) nofun
  rw [List.nil_append, List.nil_append] at hnewlines
  rw [prepared, hnewlines]
  have hsep : ∀ line : Text, (∀ c ∈ line, isBreak c = false) →
      scrub (u.nfkc line) = preparedLine u line ∧
        ∀ c ∈ preparedLine u line, (c == '\n' || c == '\r') = false := by
    intro line h
    refine ⟨scrub_line (nfkc_noBreak hu h), fun c hc => ?_⟩
    simpa using not_newline (preparedLine_noBreak hu h c hc)
  induction hn : text.length using Nat.strong_induction_on generalizing text with
  | _ n ih =>
    by_cases hbreak : ∃ b ∈ text, isBreak b = true
    · obtain ⟨line, b, text', rfl, hb, hline⟩ := exists_first hbreak
      obtain ⟨b', hb', hbreak'⟩ := scrub_break hb
      obtain ⟨hprepared, hnone⟩ := hsep line hline
      have hspecial : special b = true := by rw [special, hb, Bool.true_or]
      have hfold : scrub (u.nfkc (line ++ b :: text')) =
          preparedLine u line ++ b' :: scrub (u.nfkc text') := by
        rw [hu.nfkc_apart line b text' (by rw [standsAlone, hspecial, Bool.true_or, Bool.true_or]),
          hu.nfkc_same b (.inl hspecial), scrub_append, scrub_append, hb', hprepared]
        simp
      have hrest := ih _ (by rw [← hn, List.length_append, List.length_cons]; omega) text'
        (flatMap_newlines hg [] (scrub (u.nfkc text')) nofun) rfl
      rw [hfold, List.splitOnP_append_cons_of_forall_mem hnone b' (by simpa using hbreak'),
        List.splitOnP_append_cons_of_forall_mem hline b hb, List.flatMap_cons, List.flatMap_cons,
        hrest]
    · have hline : ∀ c ∈ text, isBreak c = false := by
        intro c hc
        by_contra hb
        exact hbreak ⟨c, hc, by simpa using hb⟩
      obtain ⟨hprepared, hnone⟩ := hsep text hline
      rw [hprepared, List.splitOnP_eq_singleton hnone, List.splitOnP_eq_singleton hline]
      rfl

end Lines

section Furniture

def notNewline (c : Char) : Bool := c ≠ '\n'

variable {u} {t l rest : Text} {q e : Nat}

theorem within_concat {p : Char → Bool} {rs : List (Regex Char)} (h : ∀ r ∈ rs, Within p r) :
    Within p (concat rs) := by
  induction rs with
  | nil => exact trivial
  | cons r rs ih =>
    obtain ⟨hr, hrs⟩ := List.forall_mem_cons.mp h
    exact ⟨hr, ih hrs⟩

theorem within_rep {p : Char → Bool} {r : Regex Char} (h : Within p r) (lo hi : Nat) :
    Within p (rep r lo hi) := by
  have htimes : ∀ n, Within p (times r n) := by
    intro n
    induction n with
    | zero => exact trivial
    | succ n ih => exact ⟨h, ih⟩
  have hupTo : ∀ n, Within p (upTo r n) := by
    intro n
    induction n with
    | zero => exact trivial
    | succ n ih => exact ⟨⟨h, ih⟩, trivial⟩
  exact ⟨htimes _, hupTo _⟩

theorem within_word (hu : Conforms u) {w : String} (hw : w.toList.all asciiLetter = true) :
    Within notNewline (word u w) := by
  apply within_concat
  intro r hr
  obtain ⟨a, ha, rfl⟩ := List.mem_map.mp hr
  intro c hc
  rw [notNewline, decide_eq_true_eq]
  rintro rfl
  rw [hu.newline_letter a (List.all_eq_true.mp hw a ha)] at hc
  cases hc

/-- A match of the pattern: from the start of a line, on characters other than a newline, to the
end of the line or of the text. -/
theorem pageFurniture_eq (hu : Conforms u) : ∃ line, LookFree line ∧
    Within notNewline line ∧ 0 < line.minLen ∧
    ∀ (t : Text) (q e : Nat), Matches t (pageFurniture u) q e ↔ (prev t q).all (· = '\n') = true ∧
      ∃ k, Matches t line q k ∧ (t[k]? = some '\n' ∧ e = k + 1 ∨ t[k]? = none ∧ e = k) := by
  have hblank : Within notNewline tabOrBlank := by simp [Within, notNewline, tabOrBlank]
  obtain ⟨body, hbody, hfree, hwithin, hmin⟩ : ∃ body, pageFurniture u =
      seq lineStart (concat [star tabOrBlank, body, star tabOrBlank, alt (lit '\n') textEnd]) ∧
        LookFree body ∧ Within notNewline body ∧ 0 < body.minLen := by
    refine ⟨_, rfl, ?_, ?_, ?_⟩
    · simp [LookFree, concat, word, opt, lit, dash, rep, times, upTo, plus, tabOrBlank,
        Recognizers.digit]
    · have hdigit : Within notNewline (Recognizers.digit u.toUnicode) := by
        intro c hc
        rw [notNewline, decide_eq_true_eq]
        rintro rfl
        rw [hu.newline_digit] at hc
        cases hc
      refine ⟨within_concat ?_, within_concat ?_, within_concat ?_⟩
      · have hdotted : ∀ c : Char, (c = ' ' ∨ c = '\t') ∨ c = '.' → ¬ c = '\n' := by
          rintro c ((rfl | rfl) | rfl) <;> decide
        simpa [Within, notNewline, opt, lit, hblank, within_rep hdigit, concat,
          within_word hu (w := "cont") rfl, within_word hu (w := "d") rfl,
          within_word hu (w := "inued") rfl, within_word hu (w := "p") rfl,
          within_word hu (w := "age") rfl] using hdotted
      · simp [Within, notNewline, dash, hblank, within_rep hdigit]
      · simp [Within, opt, plus, hblank, within_rep hdigit, concat, within_word hu (w := "page") rfl,
          within_word hu (w := "of") rfl]
    · simp [minLen, concat, word, opt, lit, dash, rep, times, upTo, plus, tabOrBlank,
        Recognizers.digit]
  refine ⟨seq (star tabOrBlank) (seq body (star tabOrBlank)), ⟨trivial, hfree, trivial⟩,
    ⟨hblank, hwithin, hblank⟩, by simpa [minLen] using hmin, fun t q e => ?_⟩
  rw [hbody]
  constructor
  · intro h
    cases h with
    | seq hlook h =>
    cases hlook with
    | look hlook =>
    cases h with
    | seq h1 h =>
    cases h with
    | seq h2 h =>
    cases h with
    | seq h3 h =>
    cases h with
    | @seq _ _ _ k _ h4 h5 =>
    cases h5
    refine ⟨hlook, _, .seq h1 (.seq h2 h3), ?_⟩
    cases h4 with
    | altLeft h4 =>
      cases h4 with
      | cls hc hp => exact .inl ⟨by rw [hc]; simpa using hp, rfl⟩
    | altRight h4 =>
      cases h4 with
      | look hp => exact .inr ⟨by simpa using hp, rfl⟩
  · rintro ⟨hlook, k, hline, hend⟩
    cases hline with
    | seq h1 h =>
    cases h with
    | seq h2 h3 =>
    refine .seq (.look hlook) (.seq h1 (.seq h2 (.seq h3 (.seq ?_ (.eps e)))))
    rcases hend with ⟨hc, rfl⟩ | ⟨hc, rfl⟩
    · exact .altLeft (.cls hc (by simp))
    · exact .altRight (.look (by simp [hc]))

theorem furniture_consumes (u : Tables) : 0 < (pageFurniture u).minLen := by
  simp [pageFurniture, minLen, concat, word, opt, lit, dash, rep, times, upTo, plus, tabOrBlank,
    Recognizers.digit]

theorem ends_inside (hq : (prev t q).all (· = '\n') ≠ true) : ends t (pageFurniture u) q = [] := by
  simp [pageFurniture, concat, ends, lineStart, hq]

/-- At the start of a line the pattern matches the line and its newline, or nothing. -/
theorem mem_ends_furniture (hu : Conforms u) (hq : (prev t q).all (· = '\n') = true)
    (hdrop : t.drop q = l ++ rest) (hqt : q ≤ t.length) (hl : '\n' ∉ l)
    (hrest : rest = [] ∨ ∃ r, rest = '\n' :: r) : e ∈ ends t (pageFurniture u) q ↔
      isFurniture u l = true ∧ e = q + l.length + min 1 rest.length := by
  obtain ⟨line, hfree, hwithin, -, hiff⟩ := pageFurniture_eq hu
  have hget : ∀ i, t[q + i]? = (l ++ rest)[i]? := by
    intro i
    rw [← hdrop, List.getElem?_drop]
  have hlen : t.length = q + l.length + rest.length := by
    have := congrArg List.length hdrop
    rw [List.length_drop, List.length_append] at this
    omega
  have hnone : ∀ i < l.length, ∃ c, (l ++ rest)[i]? = some c ∧ c ≠ '\n' := by
    intro i hi
    rw [List.getElem?_append_left hi, List.getElem?_eq_getElem hi]
    exact ⟨_, rfl, fun h => hl (h ▸ List.getElem_mem hi)⟩
  have hend : (rest = [] ∧ (l ++ rest)[l.length]? = none) ∨
      (rest.length ≥ 1 ∧ (l ++ rest)[l.length]? = some '\n') := by
    rcases hrest with rfl | ⟨r, rfl⟩ <;> simp
  have hfurniture : isFurniture u l = true ↔ Matches l line 0 l.length := by
    rw [isFurniture, List.contains_iff_mem, mem_ends_iff, hiff]
    constructor
    · rintro ⟨-, k, hline, ⟨hc, -⟩ | ⟨-, rfl⟩⟩
      · exact absurd (List.mem_of_getElem? hc) hl
      · exact hline
    · intro hline
      exact ⟨rfl, _, hline, .inr ⟨by simp, rfl⟩⟩
  rw [mem_ends_iff, hiff, hfurniture]
  constructor
  · rintro ⟨-, k, hline, hk⟩
    have hle := hline.le
    have hchars : ∀ i, q ≤ i → i < k → t[i]? ≠ some '\n' := by
      intro i hqi hik hc
      have hmem : '\n' ∈ (t.drop q).take (k - q) := by
        refine List.mem_of_getElem? (i := i - q) ?_
        rw [List.getElem?_take_of_lt (by omega), List.getElem?_drop, ← hc]
        congr 1
        omega
      exact absurd (hline.within hwithin _ hmem) (by decide)
    obtain ⟨i, rfl⟩ : ∃ i, k = q + i := ⟨k - q, by omega⟩
    have hi : i = l.length := by
      rcases Nat.lt_trichotomy i l.length with hlt | heq | hgt
      · obtain ⟨c, hc, hne⟩ := hnone i hlt
        rw [hget, hc] at hk
        rcases hk with ⟨h, -⟩ | ⟨h, -⟩
        · exact absurd (Option.some.inj h) hne
        · cases h
      · exact heq
      · rcases hend with ⟨hnil, -⟩ | ⟨-, hc⟩
        · have := hline.le_length
          simp only [hnil, List.length_nil] at hlen
          omega
        · exact absurd ((hget l.length).trans hc) (hchars _ (by omega) (by omega))
    subst hi
    have hmatch : Matches l line 0 (0 + (q + l.length - q)) := hline.transfer hfree fun m hm => by
      rw [hget, Nat.zero_add, List.getElem?_append_left (by omega)]
    rw [Nat.zero_add, Nat.add_sub_cancel_left] at hmatch
    refine ⟨hmatch, ?_⟩
    rw [hget] at hk
    rcases hend with ⟨hnil, hc⟩ | ⟨hone, hc⟩ <;> rcases hk with ⟨h, rfl⟩ | ⟨h, rfl⟩
    · rw [hc] at h
      cases h
    · simp [hnil]
    · omega
    · rw [hc] at h
      cases h
  · rintro ⟨hline, rfl⟩
    have hmatch : Matches t line q (q + (l.length - 0)) := hline.transfer hfree fun m hm => by
      rw [hget, Nat.zero_add, List.getElem?_append_left (by omega)]
    rw [Nat.sub_zero] at hmatch
    refine ⟨hq, q + l.length, hmatch, ?_⟩
    rw [hget]
    rcases hend with ⟨hnil, hc⟩ | ⟨hone, hc⟩
    · exact .inr ⟨hc, by simp [hnil]⟩
    · exact .inl ⟨hc, by omega⟩

theorem head?_ends_furniture (hu : Conforms u) (hq : (prev t q).all (· = '\n') = true)
    (hdrop : t.drop q = l ++ rest) (hqt : q ≤ t.length) (hl : '\n' ∉ l)
    (hrest : rest = [] ∨ ∃ r, rest = '\n' :: r) : (ends t (pageFurniture u) q).head? =
      if isFurniture u l = true then some (q + l.length + min 1 rest.length) else none := by
  have hmem := fun e => @mem_ends_furniture u t l rest q e hu hq hdrop hqt hl hrest
  split
  · rename_i h
    have hin := (hmem _).mpr ⟨h, rfl⟩
    obtain ⟨e, es, hes⟩ := List.exists_cons_of_ne_nil (List.ne_nil_of_mem hin)
    rw [hes, List.head?_cons, ((hmem e).mp (hes ▸ List.mem_cons_self)).2]
  · rename_i h
    rw [List.head?_eq_none_iff]
    exact List.eq_nil_iff_forall_not_mem.mpr fun e he => h ((hmem e).mp he).1

theorem not_furniture_nil (hu : Conforms u) : isFurniture u [] ≠ true := by
  obtain ⟨line, -, -, hmin, hiff⟩ := pageFurniture_eq hu
  intro h
  rw [isFurniture, List.contains_iff_mem, mem_ends_iff, hiff] at h
  obtain ⟨-, k, hline, ⟨h, -⟩ | ⟨-, hk⟩⟩ := h
  · cases h
  · have := hline.minLen_le
    rw [List.length_nil] at hk
    omega

theorem keepLines_cons {furniture : Text → Bool} {lines : List Text} (h : lines ≠ []) :
    keepLines furniture (l :: lines) = if furniture l then keepLines furniture lines
      else l ++ '\n' :: keepLines furniture lines := by
  cases lines with
  | nil => exact absurd rfl h
  | cons l' lines => rfl

/-- From the start of a line on the furniture is taken out line by line. -/
theorem splice_furniture (hu : Conforms u) (fuel : Nat) (hqt : q ≤ t.length)
    (hfuel : t.length ≤ q + fuel) (hq : (prev t q).all (· = '\n') = true) :
    splice t q ((scan t (pageFurniture u) fuel q).map fun m => ⟨m.1, m.2, []⟩) =
      keepLines (isFurniture u) ((t.drop q).splitOnP (· == '\n')) := by
  have hinside : ∀ q l rest, t.drop q = l ++ rest → '\n' ∉ l → ∀ i, q < i → i ≤ q + l.length →
      ends t (pageFurniture u) i = [] := by
    intro q l rest hdrop hl i hqi hil
    apply ends_inside
    obtain ⟨i, rfl⟩ : ∃ j, i = q + (j + 1) := ⟨i - q - 1, by omega⟩
    have hc : t[q + i]? = l[i]? := by
      rw [← List.getElem?_drop, hdrop, List.getElem?_append_left (by omega)]
    obtain ⟨c, hli⟩ : ∃ c, l[i]? = some c := ⟨_, List.getElem?_eq_getElem (by omega)⟩
    have hne : c ≠ '\n' := fun h => hl (h ▸ List.mem_of_getElem? hli)
    rw [← Nat.add_assoc, prev, hc, hli]
    simpa using hne
  induction hn : t.length - q using Nat.strong_induction_on generalizing q fuel with
  | _ n ih =>
    by_cases hmem : '\n' ∈ t.drop q
    · obtain ⟨l, t', hdrop, hl⟩ := List.eq_append_cons_of_mem hmem
      have hlen : t.length = q + (l.length + 1 + t'.length) := by
        have := congrArg List.length hdrop
        rw [List.length_drop, List.length_append, List.length_cons] at this
        omega
      have hnext : t.drop (q + l.length + 1) = t' := by
        rw [Nat.add_assoc, ← List.drop_drop, hdrop, ← List.drop_drop, List.drop_left, List.drop_one,
          List.tail_cons]
      have hprev : (prev t (q + l.length + 1)).all (· = '\n') = true := by
        rw [prev, ← List.getElem?_drop, hdrop, List.getElem?_append_right (le_refl _)]
        simp
      have hhead := head?_ends_furniture hu hq hdrop hqt hl (.inr ⟨t', rfl⟩)
      have hlines : (t.drop q).splitOnP (· == '\n') = l :: t'.splitOnP (· == '\n') := by
        rw [hdrop]
        exact List.splitOnP_append_cons_of_forall_mem
          (fun c hc => by simpa using fun h : c = '\n' => hl (h ▸ hc)) _ rfl _
      rw [hlines, keepLines_cons (List.splitOnP_ne_nil _ _)]
      obtain ⟨fuel, rfl⟩ : ∃ f, fuel = f + (l.length + 1) := ⟨fuel - (l.length + 1), by omega⟩
      have hrest : ∀ f, t.length ≤ q + l.length + 1 + f →
          splice t (q + l.length + 1)
            ((scan t (pageFurniture u) f (q + l.length + 1)).map fun m => ⟨m.1, m.2, []⟩) =
          keepLines (isFurniture u) (t'.splitOnP (· == '\n')) := by
        intro f hf
        rw [← hnext]
        exact ih _ (by omega) f (by omega) hf hprev rfl
      by_cases hfurniture : isFurniture u l = true
      · rw [if_pos hfurniture] at hhead ⊢
        have hmax : max (q + l.length + min 1 ('\n' :: t').length) (q + 1) = q + l.length + 1 := by
          rw [List.length_cons]
          omega
        rw [← Nat.add_assoc, scan, hhead]
        simp only [hmax, List.map_cons, splice]
        rw [List.length_cons, show min 1 (t'.length + 1) = 1 by omega, hrest _ (by omega)]
        simp
      · rw [if_neg hfurniture] at hhead ⊢
        have hskip : ∀ i, q ≤ i → i < q + (l.length + 1) → ends t (pageFurniture u) i = [] := by
          intro i hqi hil
          rcases Nat.eq_or_lt_of_le hqi with rfl | hlt
          · exact List.head?_eq_none_iff.mp hhead
          · exact hinside _ _ _ hdrop hl i hlt (by omega)
        rw [scan_skip hskip, ← Nat.add_assoc, splice_advance (by omega : q ≤ q + l.length + 1)
          (by omega), hrest _ (by omega), hdrop]
        · have hcut : q + l.length + 1 - q = l.length + 1 := by omega
          rw [hcut, List.take_append]
          simp
        · intro edit hedit
          obtain ⟨m, hm, rfl⟩ := List.mem_map.mp hedit
          exact scan_start_le hm
    · have hlen : t.length = q + (t.drop q).length := by
        rw [List.length_drop]
        omega
      have hhead := head?_ends_furniture hu hq (List.append_nil (t.drop q)).symm hqt hmem (.inl rfl)
      have hlines : (t.drop q).splitOnP (· == '\n') = [t.drop q] :=
        List.splitOnP_eq_singleton fun c hc => by simpa using fun h : c = '\n' => hmem (h ▸ hc)
      rw [hlines, keepLines]
      by_cases hfurniture : isFurniture u (t.drop q) = true
      · rw [if_pos hfurniture] at hhead ⊢
        have hne : t.drop q ≠ [] := by
          intro h
          rw [h] at hfurniture
          exact not_furniture_nil hu hfurniture
        have hpos := List.length_pos_iff.mpr hne
        obtain ⟨fuel, rfl⟩ : ∃ f, fuel = f + 1 := ⟨fuel - 1, by omega⟩
        rw [scan, hhead]
        simp only [List.length_nil, Nat.min_zero, Nat.add_zero, ← hlen, List.map_cons, splice]
        rw [scan_end (furniture_consumes u) (by omega), List.map_nil, splice, List.drop_length]
        simp
      · rw [if_neg hfurniture] at hhead ⊢
        have hskip : ∀ i, q ≤ i → i < q + (t.drop q).length → ends t (pageFurniture u) i = [] := by
          intro i hqi hil
          rcases Nat.eq_or_lt_of_le hqi with rfl | hlt
          · exact List.head?_eq_none_iff.mp hhead
          · exact hinside _ _ _ (List.append_nil _).symm hmem i hlt (by omega)
        obtain ⟨fuel, rfl⟩ : ∃ f, fuel = f + (t.drop q).length :=
          ⟨fuel - (t.drop q).length, by omega⟩
        rw [scan_skip hskip, scan_end (furniture_consumes u) (by omega), List.map_nil, splice]

/-- Taking out the furniture leaves the other lines. -/
theorem sub_furniture (hu : Conforms u) (t : Text) : sub (pageFurniture u) (fun _ => []) t =
    keepLines (isFurniture u) (t.splitOnP (· == '\n')) :=
  splice_furniture hu t.length (Nat.zero_le _) (by omega) rfl

end Furniture

end TextCleaner

end KnowledgeBase.Artifact
