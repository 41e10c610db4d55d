import KnowledgeBase.Fidelity

/-! What a figure is, and what becomes of it. A number that the pattern picks is a run of digits, which
stands in a figure; and the normal form of a text has its figures, without their commas. -/

namespace KnowledgeBase

namespace Fidelity

open Regex Recognizers

/-- Digits, with single commas or points between them. -/
inductive Run (p : Char → Bool) : Text → Prop
  | digits {ds : Text} (hne : ds ≠ []) (h : ∀ c ∈ ds, p c = true) : Run p ds
  | join {v ds : Text} {c : Char} (hv : Run p v) (hc : c = ',' ∨ c = '.') (hne : ds ≠ [])
      (h : ∀ c ∈ ds, p c = true) : Run p (v ++ c :: ds)

/-- A run that is part of no longer one. -/
structure Figure (text : Text) (s e : Nat) : Prop where
  inside : e ≤ text.length
  run : Run asciiDigit (slice text s e)
  maximal : ∀ s' e', s' ≤ s → e ≤ e' → e' ≤ text.length → Run asciiDigit (slice text s' e') →
    s' = s ∧ e' = e

/-- As it reads without its commas. -/
def plain (v : Text) : Text := v.filter (· ≠ ',')

section Runs

variable {p : Char → Bool} {t v w : Text} {s e i k : Nat}

theorem Run.ne_nil (h : Run p v) : v ≠ [] := by
  cases h with
  | digits hne _ => exact hne
  | join => simp

theorem Run.mem (h : Run p v) {c : Char} (hc : c ∈ v) : p c = true ∨ c = ',' ∨ c = '.' := by
  induction h with
  | digits _ h => exact .inl (h c hc)
  | @join v ds a _ ha _ h ih =>
    rcases List.mem_append.mp hc with hc | hc
    · exact ih hc
    · rcases List.mem_cons.mp hc with rfl | hc
      · exact .inr ha
      · exact .inl (h c hc)

theorem Run.imp {q : Char → Bool} (h : Run p v) (hpq : ∀ c ∈ v, p c = true → q c = true) :
    Run q v := by
  induction h with
  | digits hne h => exact .digits hne fun c hc => hpq c hc (h c hc)
  | @join v ds a _ ha hne h ih =>
    refine .join (ih fun c hc => hpq c (List.mem_append_left _ hc)) ha hne fun c hc => ?_
    exact hpq c (List.mem_append_right _ (List.mem_cons_of_mem a hc)) (h c hc)

theorem Run.append_digits {ds : Text} (h : Run p v) (hds : ∀ c ∈ ds, p c = true) : Run p (v ++ ds) := by
  cases h with
  | digits hne h =>
    refine .digits (by simp [hne]) fun c hc => ?_
    exact (List.mem_append.mp hc).elim (h c) (hds c)
  | join hv hc hne h =>
    rw [List.append_assoc, List.cons_append]
    refine .join hv hc (by simp [hne]) fun c hc => ?_
    exact (List.mem_append.mp hc).elim (h c) (hds c)

theorem Run.lt (h : Run p (slice t s e)) : s < e := by
  by_contra hle
  refine h.ne_nil ?_
  rw [slice, List.drop_eq_nil_iff, List.length_take]
  omega

theorem mem_slice {c : Char} (hc : t[i]? = some c) (hs : s ≤ i) (he : i < e) : c ∈ slice t s e := by
  refine List.mem_iff_getElem?.mpr ⟨i - s, ?_⟩
  rw [slice, List.getElem?_drop, Nat.add_sub_cancel' hs, List.getElem?_take_of_lt he, hc]

/-- A run that nothing of its kind stands beside is a figure. -/
theorem figure_of_bounded (he : e ≤ t.length) (hrun : Run asciiDigit (slice t s e))
    (hbefore : ∀ c, 0 < s → t[s - 1]? = some c → ¬ (asciiDigit c = true ∨ c = ',' ∨ c = '.'))
    (hafter : ∀ c, t[e]? = some c → ¬ (asciiDigit c = true ∨ c = ',' ∨ c = '.')) :
    Figure t s e := by
  have hlt := hrun.lt
  refine ⟨he, hrun, fun s' e' hs' he' hlen hrun' => ⟨?_, ?_⟩⟩
  · by_contra hne
    obtain ⟨c, hc⟩ : ∃ c, t[s - 1]? = some c := ⟨_, List.getElem?_eq_getElem (by omega)⟩
    exact hbefore c (by omega) hc (hrun'.mem (mem_slice hc (by omega) (by omega)))
  · by_contra hne
    obtain ⟨c, hc⟩ : ∃ c, t[e]? = some c := ⟨_, List.getElem?_eq_getElem (by omega)⟩
    exact hafter c hc (hrun'.mem (mem_slice hc (by omega) (by omega)))

/-- Whatever run stands in a text, a figure is around it. -/
theorem exists_figure (h : Run asciiDigit (slice t i k)) (hk : k ≤ t.length) :
    ∃ s e, s ≤ i ∧ k ≤ e ∧ Figure t s e := by
  induction hn : i + (t.length - k) using Nat.strongRecOn generalizing i k with
  | ind n ih =>
    by_cases hmax : ∀ s' e', s' ≤ i → k ≤ e' → e' ≤ t.length → Run asciiDigit (slice t s' e') →
        s' = i ∧ e' = k
    · exact ⟨i, k, Nat.le_refl i, Nat.le_refl k, hk, h, hmax⟩
    · push Not at hmax
      obtain ⟨s', e', hs, he, hlen, hrun, hne⟩ := hmax
      have hless : s' + (t.length - e') < n := by
        by_cases hsi : s' = i
        · have := hne hsi
          omega
        · omega
      obtain ⟨s, e, hss, hee, hfig⟩ := ih _ hless hrun hlen rfl
      exact ⟨s, e, Nat.le_trans hss hs, Nat.le_trans he hee, hfig⟩

theorem slice_within (t : Text) (hs : s ≤ i) (he : k ≤ e) : slice t i k <:+: slice t s e := by
  have hprefix : slice t i k <+: slice t i e := by
    obtain ⟨z, hz⟩ := List.take_prefix_take_left (l := t) he
    rw [slice, slice, ← hz]
    by_cases hi : i ≤ (t.take k).length
    · rw [List.drop_append_of_le_length hi]
      exact List.prefix_append _ _
    · rw [List.drop_eq_nil_of_le (by omega)]
      exact List.nil_prefix
  have hsuffix : slice t i e <:+ slice t s e := by
    rw [slice, slice, show i = s + (i - s) by omega, ← List.drop_drop]
    exact List.drop_suffix _ _
  exact hprefix.isInfix.trans hsuffix.isInfix

theorem plain_append (v w : Text) : plain (v ++ w) = plain v ++ plain w := List.filter_append _ _

theorem plain_infix (h : v <:+: w) : plain v <:+: plain w := h.filter _

end Runs

section Picked

variable {u : Unicode} {v w : Text}

theorem run_groups (hv : Run u.isDigit v)
    (h : Spells (star (seq (lit ',') (rep (digit u) 2 3))) w) : Run u.isDigit (v ++ w) := by
  generalize hr : star (seq (lit ',') (rep (digit u) 2 3)) = r at h
  induction h generalizing v with
  | starNil => rwa [List.append_nil]
  | @starCons r' x y hx _ _ ih =>
    cases hr
    obtain ⟨a, ds, rfl, ha, hds⟩ := spells_seq_iff.mp hx
    obtain ⟨c, hc, rfl⟩ := spells_cls_iff.mp ha
    obtain ⟨hlen, hall⟩ := spells_rep_cls hds
    have hjoin := ih (.join hv (.inl (by simpa using hc)) (List.ne_nil_of_length_pos (by omega)) hall) rfl
    simpa using hjoin
  | eps | cls | look | seq | altLeft | altRight => cases hr

theorem run_point (hv : Run u.isDigit v) (h : Spells (seq (lit '.') (plus (digit u))) w) :
    Run u.isDigit (v ++ w) := by
  obtain ⟨a, ds, rfl, ha, hds⟩ := spells_seq_iff.mp h
  obtain ⟨c, hc, rfl⟩ := spells_cls_iff.mp ha
  obtain ⟨hne, hall⟩ := spells_plus_cls hds
  exact .join hv (.inr (by simpa using hc)) hne hall

theorem spells_lits {a b : Char} (h : Spells (seq (lit a) (lit b)) v) : v = [a, b] := by
  obtain ⟨x, y, rfl, hx, hy⟩ := spells_seq_iff.mp h
  obtain ⟨c, hc, rfl⟩ := spells_cls_iff.mp hx
  obtain ⟨d, hd, rfl⟩ := spells_cls_iff.mp hy
  rw [decide_eq_true_eq] at hc hd
  rw [hc, hd]
  rfl

/-- A run of digits, and the suffix of an ordinal or none. -/
theorem spells_number (h : Spells (numberPattern u) v) : ∃ core suffix, v = core ++ suffix ∧
    Run u.isDigit core ∧ (suffix = [] ∨ suffix ∈ ordinals.map String.toList) := by
  obtain ⟨a, rest, rfl, ha, hrest⟩ := spells_seq_iff.mp h
  obtain ⟨body, b, rfl, hbody, hb⟩ := spells_seq_iff.mp hrest
  cases ha
  cases hb
  rw [List.nil_append, List.append_nil]
  rcases spells_alt_iff.mp hbody with hgroup | hbody
  · obtain ⟨ds, rest, rfl, hds, hrest⟩ := spells_seq_iff.mp hgroup
    obtain ⟨groups, tail, rfl, hgroups, htail⟩ := spells_seq_iff.mp hrest
    obtain ⟨point, nothing, rfl, hpoint, hnothing⟩ := spells_seq_iff.mp htail
    obtain ⟨hlen, hall⟩ := spells_rep_cls hds
    obtain ⟨first, more, rfl, hfirst, hmore⟩ := spells_seq_iff.mp hgroups
    have hrun := run_groups (.digits (List.ne_nil_of_length_pos (by omega)) hall)
      (.starCons hfirst hmore)
    rw [spells_eps_iff.mp hnothing, List.append_nil]
    refine ⟨ds ++ (first ++ more ++ point), [], by simp, ?_, .inl rfl⟩
    rcases spells_opt_iff.mp hpoint with hpoint | rfl
    · rw [← List.append_assoc]
      exact run_point hrun hpoint
    · rwa [List.append_nil]
  rcases spells_alt_iff.mp hbody with hdecimal | hbody
  · obtain ⟨ds, rest, rfl, hds, hrest⟩ := spells_seq_iff.mp hdecimal
    obtain ⟨point, tail, rfl, hpoint, htail⟩ := spells_seq_iff.mp hrest
    obtain ⟨fraction, nothing, rfl, hfraction, hnothing⟩ := spells_seq_iff.mp htail
    obtain ⟨hne, hall⟩ := spells_plus_cls hds
    rw [spells_eps_iff.mp hnothing, List.append_nil]
    exact ⟨ds ++ (point ++ fraction), [], by simp, run_point (.digits hne hall) (.seq hpoint hfraction),
      .inl rfl⟩
  rcases spells_alt_iff.mp hbody with hlong | hshort
  · obtain ⟨ds, more, rfl, hds, hmore⟩ := spells_seq_iff.mp hlong
    obtain ⟨hlen, hall⟩ := spells_times_cls hds
    exact ⟨ds ++ more, [], by simp, (Run.digits (List.ne_nil_of_length_pos (by omega)) hall).append_digits
      (spells_star_cls hmore), .inl rfl⟩
  · obtain ⟨ds, suffix, rfl, hds, hsuffix⟩ := spells_seq_iff.mp hshort
    obtain ⟨hlen, hall⟩ := spells_rep_cls hds
    refine ⟨ds, suffix, rfl, .digits (List.ne_nil_of_length_pos (by omega)) hall, ?_⟩
    rcases spells_opt_iff.mp hsuffix with h | rfl
    · refine .inr ?_
      rcases spells_alt_iff.mp h with h | h
      · simp [spells_lits h, ordinals]
      rcases spells_alt_iff.mp h with h | h
      · simp [spells_lits h, ordinals]
      rcases spells_alt_iff.mp h with h | h
      · simp [spells_lits h, ordinals]
      · simp [spells_lits h, ordinals]
    · exact .inl rfl

end Picked

/-- How the tables of the language read ASCII. Digits, blanks and commas have no case, and what is
on one side of them does not change how the other side is put in lower case. -/
structure ReadsAscii (u : Unicode) (lower : Text → Text) : Prop where
  decimal : ∀ c : Char, c.toNat < 128 → u.isDigit c = asciiDigit c
  alnum : ∀ c : Char, c.toNat < 128 → u.isAlnum c = (asciiDigit c || asciiLetter c)
  blank : u.isSpace ' ' = true ∧ u.isSpace '\n' = true
  graphic : ∀ c : Char, 32 < c.toNat → c.toNat < 127 → u.isSpace c = false
  lower_ascii : ∀ t : Text, (∀ c ∈ t, c.toNat < 128) → lower t = t.map Char.toLower
  lower_seam : ∀ (x : Text) (c : Char) (y : Text), asciiDigit c = true ∨ c = ' ' ∨ c = ',' →
    lower (x ++ c :: y) = lower x ++ c :: lower y

section Normal

variable {u : Unicode} {lower : Text → Text} {b t w g suffix : Text} {c : Char}

/-- The letters of the suffixes. -/
def OrdinalLetter (c : Char) : Prop := c ∈ ['s', 't', 'n', 'd', 'r', 'h']

theorem ordinalAhead_cases (h : ordinalAhead u t = true) :
    ∃ a b z, t = a :: b :: z ∧ OrdinalLetter a ∧ OrdinalLetter b := by
  rw [ordinalAhead, Bool.and_eq_true, List.any_eq_true] at h
  obtain ⟨⟨s, hs, hpre⟩, -⟩ := h
  obtain ⟨z, rfl⟩ := List.isPrefixOf_iff_prefix.mp hpre
  have hall : ∀ s ∈ ordinals, ∃ a b, s.toList = [a, b] ∧ OrdinalLetter a ∧ OrdinalLetter b := by
    simp [ordinals, OrdinalLetter]
  obtain ⟨a, b, hab, ha, hb⟩ := hall s hs
  exact ⟨a, b, z, by rw [hab]; rfl, ha, hb⟩

theorem ordinalAhead_eq_false (hc : ¬ OrdinalLetter c) : ordinalAhead u (c :: t) = false := by
  rw [Bool.eq_false_iff]
  intro h
  obtain ⟨a, b, z, heq, ha, -⟩ := ordinalAhead_cases h
  exact hc ((List.cons.inj heq).1 ▸ ha)

theorem dropOrdinals_front (hne : w ≠ []) (hw : ∀ c ∈ w, ¬ OrdinalLetter c) :
    ∃ z, dropOrdinals u 0 (w ++ b) = w ++ z := by
  induction w with
  | nil => exact absurd rfl hne
  | cons c w ih =>
    cases w with
    | nil =>
      rw [List.singleton_append, dropOrdinals]
      split <;> exact ⟨_, rfl⟩
    | cons d w =>
      obtain ⟨z, hz⟩ := ih (List.cons_ne_nil d w) fun e he => hw e (List.mem_cons_of_mem c he)
      have hno : ordinalAhead u (d :: w ++ b) = false := ordinalAhead_eq_false (hw d (by simp))
      rw [List.cons_append, dropOrdinals, hno, Bool.and_false, if_neg Bool.false_ne_true, hz]
      exact ⟨z, rfl⟩

/-- What holds none of those letters stays together. -/
theorem dropOrdinals_infix (hne : w ≠ []) (hw : ∀ c ∈ w, ¬ OrdinalLetter c) (a b : Text) (k : Nat)
    (hk : ∀ c ∈ (a ++ w ++ b).take k, OrdinalLetter c) : w <:+: dropOrdinals u k (a ++ w ++ b) := by
  induction a generalizing k with
  | nil =>
    cases k with
    | zero =>
      obtain ⟨z, hz⟩ := dropOrdinals_front (u := u) (b := b) hne hw
      rw [List.nil_append, hz]
      exact (List.prefix_append w z).isInfix
    | succ k =>
      obtain ⟨c, w, rfl⟩ := List.exists_cons_of_ne_nil hne
      exact absurd (hk c (by simp)) (hw c List.mem_cons_self)
  | cons c a ih =>
    cases k with
    | succ k =>
      exact ih k fun d hd => hk d (List.mem_cons_of_mem c hd)
    | zero =>
      rw [List.cons_append, List.cons_append, dropOrdinals]
      split
      · rename_i hmatch
        rw [Bool.and_eq_true] at hmatch
        refine (ih 2 ?_).trans (List.suffix_cons _ _).isInfix
        obtain ⟨d, e, z, heq, hd, he⟩ := ordinalAhead_cases hmatch.2
        rw [heq]
        simpa using ⟨hd, he⟩
      · exact (ih 0 (by simp)).trans (List.suffix_cons _ _).isInfix

theorem oneSpace_solid (hne : w ≠ []) (hw : ∀ c ∈ w, u.isSpace c = false) (after : Bool) :
    oneSpace u after (w ++ b) = w ++ oneSpace u false b := by
  induction w generalizing after with
  | nil => exact absurd rfl hne
  | cons c w ih =>
    obtain ⟨hc, hw⟩ := List.forall_mem_cons.mp hw
    rw [List.cons_append, oneSpace, hc, if_neg Bool.false_ne_true]
    cases w with
    | nil => rfl
    | cons d w => exact congrArg _ (ih (List.cons_ne_nil d w) hw false)

theorem oneSpace_append (after : Bool) (a x : Text) :
    ∃ later, oneSpace u after (a ++ x) = oneSpace u after a ++ oneSpace u later x := by
  induction a generalizing after with
  | nil => exact ⟨after, rfl⟩
  | cons c a ih =>
    rw [List.cons_append, oneSpace, oneSpace]
    split
    · obtain ⟨later, hlater⟩ := ih true
      refine ⟨later, ?_⟩
      split <;> simp [hlater]
    · obtain ⟨later, hlater⟩ := ih false
      exact ⟨later, by simp [hlater]⟩

theorem oneSpace_infix (hne : w ≠ []) (hw : ∀ c ∈ w, u.isSpace c = false) (a b : Text) :
    w <:+: oneSpace u false (a ++ w ++ b) := by
  obtain ⟨later, h⟩ := oneSpace_append (u := u) false a (w ++ b)
  rw [List.append_assoc, h, oneSpace_solid hne hw]
  exact (List.prefix_append w _).isInfix.trans (List.suffix_append _ _).isInfix

theorem asciiDigit_toNat (h : asciiDigit c = true) : 48 ≤ c.toNat ∧ c.toNat ≤ 57 := by
  rw [asciiDigit, Bool.and_eq_true, decide_eq_true_eq, decide_eq_true_eq] at h
  exact ⟨UInt32.le_iff_toNat_le.mp (Char.le_def.mp h.1),
    UInt32.le_iff_toNat_le.mp (Char.le_def.mp h.2)⟩

theorem toLower_of_lt (h : c.toNat < 65) : c.toLower = c := by
  rw [Char.toLower, dif_neg]
  intro hupper
  have hle : 65 ≤ c.toNat := UInt32.le_iff_toNat_le.mp hupper.1
  omega

theorem Run.toNat_lt (hg : Run asciiDigit g) (hc : c ∈ g) : 32 < c.toNat ∧ c.toNat < 65 := by
  rcases hg.mem hc with hd | rfl | rfl
  · have := asciiDigit_toNat hd
    omega
  · decide
  · decide

theorem Run.not_letter (hg : Run asciiDigit g) (hc : c ∈ g) : ¬ OrdinalLetter c := by
  intro hletter
  have hlt := (hg.toNat_lt hc).2
  have hall : ∀ c, OrdinalLetter c → 65 ≤ c.toNat := by simp [OrdinalLetter]
  have := hall c hletter
  omega

/-- Without its commas a run still ends in a digit. -/
theorem Run.plain_last (hg : Run asciiDigit g) : ∃ w d, plain g = w ++ [d] ∧ asciiDigit d = true := by
  have hall : ∀ {ds : Text}, ds ≠ [] → (∀ c ∈ ds, asciiDigit c = true) →
      plain ds = ds ∧ ∃ w d, ds = w ++ [d] ∧ asciiDigit d = true := by
    intro ds hne h
    constructor
    · rw [plain, List.filter_eq_self]
      intro c hc
      have := asciiDigit_toNat (h c hc)
      rw [decide_eq_true_eq]
      rintro rfl
      exact absurd this.1 (by decide)
    · rcases List.eq_nil_or_concat ds with rfl | ⟨w, d, rfl⟩
      · exact absurd rfl hne
      · exact ⟨w, d, by rw [List.concat_eq_append], h d (by simp)⟩
  cases hg with
  | digits hne h =>
    obtain ⟨hplain, w, d, hds, hd⟩ := hall hne h
    exact ⟨w, d, hplain.trans hds, hd⟩
  | @join v ds c hv hc hne h =>
    obtain ⟨hplain, w, d, hds, hd⟩ := hall hne h
    refine ⟨plain (v ++ [c]) ++ w, d, ?_, hd⟩
    have hsplit : v ++ c :: ds = (v ++ [c]) ++ ds := by simp
    rw [hsplit, plain_append, hplain, List.append_assoc, ← hds]

theorem Run.plain_ne_nil (hg : Run asciiDigit g) : plain g ≠ [] := by
  obtain ⟨w, d, h, -⟩ := hg.plain_last
  simp [h]

theorem mem_of_plain (hc : c ∈ plain g) : c ∈ g := (List.mem_filter.mp hc).1

variable (h : ReadsAscii u lower)

include h

theorem lower_digits {ds : Text} (hds : ∀ c ∈ ds, asciiDigit c = true) (y : Text) :
    lower (ds ++ y) = ds ++ lower y := by
  induction ds with
  | nil => rfl
  | cons d ds ih =>
    obtain ⟨hd, hds⟩ := List.forall_mem_cons.mp hds
    have hnil : lower [] = [] := h.lower_ascii [] nofun
    have hseam := h.lower_seam [] d (ds ++ y) (.inl hd)
    rw [hnil, List.nil_append, List.nil_append, ih hds] at hseam
    exact hseam

/-- A run keeps its place in lower case. -/
theorem lower_run (hg : Run asciiDigit g) (x y : Text) :
    lower (x ++ g ++ y) = lower x ++ g ++ lower y := by
  have hfirst : ∀ {ds : Text}, ds ≠ [] → (∀ c ∈ ds, asciiDigit c = true) → ∀ x y : Text,
      lower (x ++ ds ++ y) = lower x ++ ds ++ lower y := by
    intro ds hne hds x y
    obtain ⟨d, ds, rfl⟩ := List.exists_cons_of_ne_nil hne
    obtain ⟨hd, hds⟩ := List.forall_mem_cons.mp hds
    have hseam := h.lower_seam x d (ds ++ y) (.inl hd)
    rw [lower_digits h hds] at hseam
    simpa using hseam
  induction hg generalizing y with
  | digits hne hds => exact hfirst hne hds x y
  | @join v ds c _ hc hne hds ih =>
    have hrest : lower (c :: (ds ++ y)) = c :: (ds ++ lower y) := by
      rcases hc with rfl | rfl
      · have hseam := h.lower_seam [] ',' (ds ++ y) (.inr (.inr rfl))
        rw [lower_digits h hds, h.lower_ascii [] nofun] at hseam
        exact hseam
      · have hpoint : lower ['.'] = ['.'] := h.lower_ascii _ (by simp)
        simpa [hpoint] using hfirst hne hds ['.'] y
    have hsplit : x ++ (v ++ c :: ds) ++ y = x ++ v ++ (c :: (ds ++ y)) := by simp
    rw [hsplit, ih, hrest]
    simp

/-- A run in a text is in its normal form, without its commas. -/
theorem normalise_infix (hg : Run asciiDigit g) (x y : Text) :
    plain g <:+: normalise u lower (x ++ g ++ y) := by
  have hletters : ∀ c ∈ plain g, ¬ OrdinalLetter c := fun c hc => hg.not_letter (mem_of_plain hc)
  have hspaces : ∀ c ∈ plain g, u.isSpace c = false := by
    intro c hc
    have := hg.toNat_lt (mem_of_plain hc)
    exact h.graphic c this.1 (by omega)
  have hcommas : (lower (x ++ g ++ y)).filter (· ≠ ',') =
      plain (lower x) ++ plain g ++ plain (lower y) := by
    rw [lower_run h hg, List.filter_append, List.filter_append]
    rfl
  rw [normalise, hcommas]
  obtain ⟨a, b, hin⟩ := dropOrdinals_infix (u := u) hg.plain_ne_nil hletters (plain (lower x))
    (plain (lower y)) 0 (by simp)
  rw [← hin]
  exact oneSpace_infix hg.plain_ne_nil hspaces a b

theorem ordinalAhead_suffix (hs : suffix ∈ ordinals.map String.toList) :
    ordinalAhead u suffix = true ∧ dropOrdinals u 2 suffix = [] := by
  obtain ⟨s, hmem, rfl⟩ := List.mem_map.mp hs
  have hall : ∀ s ∈ ordinals, ∃ a b, s.toList = [a, b] ∧ b.toNat < 128 ∧ asciiLetter b = true := by
    simp [ordinals, asciiLetter, asciiUpper]
  obtain ⟨a, b, hab, hlt, hb⟩ := hall s hmem
  have hword : u.isWord b = true := by
    rw [Unicode.isWord, h.alnum b hlt, hb]
    simp
  constructor
  · rw [ordinalAhead, Bool.and_eq_true, List.any_eq_true]
    refine ⟨⟨s, hmem, List.isPrefixOf_iff_prefix.mpr (List.prefix_refl _)⟩, ?_⟩
    simp [hab, hword]
  · rw [hab]
    rfl

theorem dropOrdinals_end {d : Char} (hw : ∀ c ∈ w ++ [d], ¬ OrdinalLetter c) (hd : u.isDigit d = true)
    (hs : suffix = [] ∨ suffix ∈ ordinals.map String.toList) :
    dropOrdinals u 0 (w ++ d :: suffix) = w ++ [d] := by
  induction w with
  | nil =>
    rw [List.nil_append, List.nil_append, dropOrdinals, hd, Bool.true_and]
    rcases hs with rfl | hs
    · rfl
    · obtain ⟨hahead, hrest⟩ := ordinalAhead_suffix h hs
      rw [if_pos hahead, hrest]
  | cons c w ih =>
    have hno : ordinalAhead u (w ++ d :: suffix) = false := by
      cases w with
      | nil => exact ordinalAhead_eq_false (hw d (by simp))
      | cons e w => exact ordinalAhead_eq_false (hw e (by simp))
    rw [List.cons_append, dropOrdinals, hno, Bool.and_false, if_neg Bool.false_ne_true,
      ih fun e he => hw e (List.mem_cons_of_mem c he)]
    rfl

/-- The normal form of a run is the run without its commas and its suffix. -/
theorem normalise_run (hg : Run asciiDigit g)
    (hs : suffix = [] ∨ suffix ∈ ordinals.map String.toList) :
    normalise u lower (g ++ suffix) = plain g := by
  have hlow : ∀ s ∈ ordinals, ∀ c ∈ s.toList, c.toNat < 128 ∧ c.toLower = c ∧ c ≠ ',' := by
    simp [ordinals]
  have hsuffix : ∀ c ∈ suffix, c.toNat < 128 ∧ c.toLower = c ∧ c ≠ ',' := by
    rcases hs with rfl | hs
    · exact List.forall_mem_nil _
    · obtain ⟨s, hmem, rfl⟩ := List.mem_map.mp hs
      exact hlow s hmem
  have hall : ∀ c ∈ g ++ suffix, c.toNat < 128 ∧ c.toLower = c := by
    intro c hc
    rcases List.mem_append.mp hc with hc | hc
    · have hlt := (hg.toNat_lt hc).2
      exact ⟨by omega, toLower_of_lt hlt⟩
    · exact ⟨(hsuffix c hc).1, (hsuffix c hc).2.1⟩
  have hlower : lower (g ++ suffix) = g ++ suffix := by
    rw [h.lower_ascii _ fun c hc => (hall c hc).1]
    exact (List.map_congr_left fun c hc => (hall c hc).2).trans (List.map_id _)
  have hcommas : (g ++ suffix).filter (· ≠ ',') = plain g ++ suffix := by
    rw [List.filter_append]
    refine congrArg _ (List.filter_eq_self.mpr fun c hc => ?_)
    simpa using (hsuffix c hc).2.2
  obtain ⟨w, d, hwd, hd⟩ := hg.plain_last
  have hdrop : dropOrdinals u 0 (plain g ++ suffix) = plain g := by
    rw [hwd, List.append_assoc]
    refine dropOrdinals_end h (fun c hc => ?_) ?_ hs
    · exact hg.not_letter (mem_of_plain (hwd ▸ hc))
    · have := asciiDigit_toNat hd
      rw [h.decimal d (by omega), hd]
  have hspaces : ∀ c ∈ plain g, u.isSpace c = false := by
    intro c hc
    have := hg.toNat_lt (mem_of_plain hc)
    exact h.graphic c this.1 (by omega)
  have hsolid := oneSpace_solid (b := []) hg.plain_ne_nil hspaces false
  rw [normalise, hlower, hcommas, hdrop]
  simpa [oneSpace] using hsolid

end Normal

end Fidelity

end KnowledgeBase
