import Mathlib.Data.List.Infix

/-! Taking pieces out of a text. A word stands between an opening and a closing symbol that it
does not hold itself; taking all its occurrences out can put the ends of another word together.
The words that are there afterwards are read off from the stretches that are there before. -/

namespace Excision

variable {α : Type*}

/-- The second text is the first with the occurrences of `p` taken out from left to right. -/
inductive Removes (p : List α) : List α → List α → Prop
  | nil : Removes p [] []
  | hit {t t' : List α} (h : Removes p t t') : Removes p (p ++ t) t'
  | skip {a : α} {t t' : List α} (hp : ¬ p <+: a :: t) (h : Removes p t t') :
      Removes p (a :: t) (a :: t')

theorem Removes.unique {p t a b : List α} (hp : p ≠ []) (ha : Removes p t a)
    (hb : Removes p t b) : a = b := by
  induction ha generalizing b with
  | nil =>
    generalize hs : ([] : List α) = s at hb
    cases hb with
    | nil => rfl
    | hit => exact absurd (List.append_eq_nil_iff.mp hs.symm).1 hp
    | skip => cases hs
  | @hit t t' _ ih =>
    generalize hs : p ++ t = s at hb
    cases hb with
    | nil => exact absurd (List.append_eq_nil_iff.mp hs).1 hp
    | hit h => exact ih (List.append_cancel_left hs ▸ h)
    | skip hno => exact absurd ⟨t, hs⟩ hno
  | @skip x t t' hno _ ih =>
    generalize hs : x :: t = s at hb
    cases hb with
    | nil => cases hs
    | hit => exact absurd ⟨_, hs.symm⟩ hno
    | skip _ h =>
      obtain ⟨rfl, rfl⟩ := List.cons.inj hs
      rw [ih h]

theorem exists_removes {p : List α} (hp : p ≠ []) (t : List α) : ∃ t', Removes p t t' := by
  induction hn : t.length using Nat.strongRecOn generalizing t with
  | ind n ih =>
    by_cases hpre : p <+: t
    · obtain ⟨z, rfl⟩ := hpre
      have hlen : z.length < n := by
        have := List.length_pos_of_ne_nil hp
        rw [← hn, List.length_append]
        omega
      obtain ⟨z', hz⟩ := ih z.length hlen z rfl
      exact ⟨z', .hit hz⟩
    · cases t with
      | nil => exact ⟨[], .nil⟩
      | cons a t =>
        obtain ⟨t', ht⟩ := ih t.length (by rw [← hn]; simp) t rfl
        exact ⟨a :: t', .skip hpre ht⟩

/-- Where a symbol is left, it stood, and no occurrence that ends in it stood there. -/
theorem Removes.split {p t x' z' : List α} {a : α} (h : Removes p t (x' ++ a :: z')) :
    ∃ x z, t = x ++ a :: z ∧ Removes p x x' ∧ Removes p z z' ∧ ¬ p <+: a :: z ∧
      ∀ q, p = q ++ [a] → a ∉ q → ¬ q <:+ x := by
  generalize hs : x' ++ a :: z' = s at h
  induction h generalizing x' with
  | nil => cases x' <;> cases hs
  | @hit t t' _ ih =>
    obtain ⟨x, z, rfl, hx, hz, hno, hend⟩ := ih hs
    refine ⟨p ++ x, z, (List.append_assoc _ _ _).symm, .hit hx, hz, hno, fun q hq ha hsuf => ?_⟩
    rcases List.suffix_or_suffix_of_suffix hsuf (List.suffix_append p x) with hqx | ⟨y, hy⟩
    · exact hend q hq ha hqx
    · obtain ⟨r, hr⟩ := hsuf
      rw [← hy, ← List.append_assoc] at hr
      have hry : r ++ y = q ++ [a] := (List.append_cancel_right hr).trans hq
      rcases List.eq_nil_or_concat y with rfl | ⟨y', b, rfl⟩
      · exact hend q hq ha (by rw [← hy]; exact List.suffix_refl x)
      · have hb : b = a := by
          rw [List.concat_eq_append, ← List.append_assoc] at hry
          exact List.singleton_inj.mp (List.append_inj' hry rfl).2
        exact ha (by rw [← hy, hb]; simp)
  | @skip b t t' hno h ih =>
    cases x' with
    | nil =>
      obtain ⟨rfl, rfl⟩ := List.cons.inj hs
      refine ⟨[], t, rfl, .nil, h, hno, fun q hq _ hsuf => ?_⟩
      obtain rfl := List.suffix_nil.mp hsuf
      exact hno ⟨t, by rw [hq]; rfl⟩
    | cons b' x' =>
      obtain ⟨rfl, hs'⟩ := List.cons.inj hs
      obtain ⟨x, z, rfl, hx, hz, hnoz, hend⟩ := ih hs'
      refine ⟨b' :: x, z, rfl, .skip (fun hpre => ?_) hx, hz, hnoz, fun q hq ha hsuf => ?_⟩
      · exact hno (hpre.trans (List.prefix_append (b' :: x) (a :: z)))
      · rcases List.suffix_cons_iff.mp hsuf with rfl | hqx
        · exact hno ⟨z, by rw [hq]; simp⟩
        · exact hend q hq ha hqx

section Words

/-- A word with its delimiters. -/
def word (o c : α) (d : List α) : List α := o :: (d ++ [c])

/-- It holds neither of them. -/
def Bare (o c : α) (d : List α) : Prop := o ∉ d ∧ c ∉ d

variable {o c : α} {d w v x x' y t t' z : List α}

theorem word_ne_nil (o c : α) (d : List α) : word o c d ≠ [] := List.cons_ne_nil _ _

/-- An occurrence reaches over no opening symbol. -/
theorem prefix_open (hoc : o ≠ c) (hd : Bare o c d) (hx : x ≠ []) (h : word o c d <+: x ++ o :: y) :
    word o c d <+: x := by
  rcases List.prefix_or_prefix_of_prefix h (List.prefix_append x (o :: y)) with hp | ⟨r, hr⟩
  · exact hp
  · cases r with
    | nil => exact ⟨[], by rw [← hr]; simp⟩
    | cons b r =>
      rw [← hr, List.prefix_append_right_inj] at h
      obtain ⟨rfl, -⟩ := List.cons_prefix_cons.mp h
      obtain ⟨a, x, rfl⟩ := List.exists_cons_of_ne_nil hx
      have hmem : b ∈ d ++ [c] := by
        rw [← (List.cons.inj hr).2]
        simp
      rcases List.mem_append.mp hmem with hb | hb
      · exact absurd hb hd.1
      · exact absurd (List.mem_singleton.mp hb) hoc

/-- Over its last symbol a prefix reaches only to end there. -/
theorem prefix_close {q : List α} (hq : c ∉ q) (h : q ++ [c] <+: x ++ c :: y) :
    q ++ [c] <+: x ∨ x = q := by
  rcases List.prefix_or_prefix_of_prefix h (List.prefix_append x (c :: y)) with hp | ⟨r, hr⟩
  · exact .inl hp
  · cases r with
    | nil => exact .inl ⟨[], by rw [← hr]; simp⟩
    | cons b r =>
      rw [← hr, List.prefix_append_right_inj] at h
      obtain ⟨rfl, -⟩ := List.cons_prefix_cons.mp h
      rcases List.eq_nil_or_concat r with rfl | ⟨r, e, rfl⟩
      · exact .inr (List.append_inj' hr rfl).1
      · rw [List.concat_eq_append, ← List.cons_append, ← List.append_assoc] at hr
        refine absurd ?_ hq
        rw [← (List.append_inj' hr rfl).1]
        simp

theorem Bare.close_not_mem (hoc : o ≠ c) (hd : Bare o c d) : c ∉ o :: d := by
  rw [List.mem_cons, not_or]
  exact ⟨hoc.symm, hd.2⟩

theorem Removes.append_open (hoc : o ≠ c) (hd : Bare o c d) (hx : Removes (word o c d) x x')
    (hy : Removes (word o c d) (o :: y) z) : Removes (word o c d) (x ++ o :: y) (x' ++ z) := by
  induction hx with
  | nil => exact hy
  | hit _ ih =>
    rw [List.append_assoc]
    exact .hit ih
  | skip hno _ ih => exact .skip (fun hp => hno (prefix_open hoc hd (List.cons_ne_nil _ _) hp)) ih

theorem Removes.append_close (hoc : o ≠ c) (hd : Bare o c d) (hx : Removes (word o c d) x x')
    (hend : ¬ o :: d <:+ x) (hy : Removes (word o c d) y z) :
    Removes (word o c d) (x ++ c :: y) (x' ++ c :: z) := by
  induction hx with
  | nil => exact .skip (fun hp => hoc (List.cons_prefix_cons.mp hp).1) hy
  | @hit x _ _ ih =>
    rw [List.append_assoc]
    exact .hit (ih fun hsuf => hend (hsuf.trans (List.suffix_append _ x)))
  | @skip b x _ hno _ ih =>
    refine .skip (fun hp => ?_) (ih fun hsuf => hend (hsuf.trans (List.suffix_cons b x)))
    have hp' : (o :: d) ++ [c] <+: (b :: x) ++ c :: y := hp
    rcases prefix_close (hd.close_not_mem hoc) hp' with hp' | he
    · exact hno hp'
    · exact hend (by rw [he])

/-- Its delimiters outlive the removal of `d`: the stretch is not the word itself, and neither of
them belongs to an occurrence that reaches into it. -/
structure Outlives (o c : α) (d w : List α) : Prop where
  other : w ≠ d
  opening : ¬ d ++ [c] <+: w
  closing : ¬ o :: d <:+ w

/-- The words that are there after a removal are what it leaves of stretches that outlive it. -/
theorem Removes.word_iff (hoc : o ≠ c) (hd : Bare o c d)
    (h : Removes (word o c d) t t') :
    word o c v <:+: t' ↔ ∃ w, word o c w <:+: t ∧ Outlives o c d w ∧ Removes (word o c d) w v := by
  constructor
  · rintro ⟨x', y', hv⟩
    have hv' : t' = x' ++ o :: (v ++ c :: y') := by rw [← hv, word]; simp
    subst hv'
    obtain ⟨x, z, rfl, -, hz, hno, -⟩ := h.split
    obtain ⟨w, y, rfl, hw, -, -, hend⟩ := hz.split
    have hclosing : ¬ o :: d <:+ w := hend (o :: d) rfl (hd.close_not_mem hoc)
    refine ⟨w, ⟨x, y, by rw [word]; simp⟩, ⟨?_, ?_, hclosing⟩, hw⟩
    · rintro rfl
      exact hno ⟨y, by rw [word]; simp⟩
    · rintro ⟨r, rfl⟩
      exact hno ⟨r ++ c :: y, by rw [word]; simp⟩
  · rintro ⟨w, ⟨x, y, rfl⟩, ⟨hne, hopen, hclose⟩, hw⟩
    obtain ⟨x', hx⟩ := exists_removes (word_ne_nil o c d) x
    obtain ⟨y', hy⟩ := exists_removes (word_ne_nil o c d) y
    have hno : ¬ word o c d <+: o :: (w ++ c :: y) := by
      intro hp
      rcases prefix_close hd.2 (List.cons_prefix_cons.mp hp).2 with hp | he
      · exact hopen hp
      · exact hne he
    have hafter := Removes.append_open hoc hd hx (.skip hno (hw.append_close hoc hd hclose hy))
    have heq : t' = x' ++ o :: (v ++ c :: y') :=
      Removes.unique (word_ne_nil o c d) h (by simpa [word] using hafter)
    exact ⟨x', y', by rw [heq, word]; simp⟩

theorem removes_self (h : o ∉ v ∨ c ∉ v) (d : List α) : Removes (word o c d) v v := by
  induction v with
  | nil => exact .nil
  | cons a v ih =>
    refine .skip (fun hp => ?_) (ih (h.imp (fun hn hm => hn (List.mem_cons_of_mem a hm))
      fun hn hm => hn (List.mem_cons_of_mem a hm)))
    have hsub := hp.subset
    exact h.elim (fun hn => hn (hsub (by simp [word]))) fun hn => hn (hsub (by simp [word]))

/-- An opening symbol that nothing closes is left. -/
theorem Removes.unclosed (hoc : o ≠ c) (hd : Bare o c d) (hv : c ∉ v)
    (h : Removes (word o c d) (x ++ o :: v) t') : ∃ x', t' = x' ++ o :: v := by
  obtain ⟨x', hx⟩ := exists_removes (word_ne_nil o c d) x
  have hself : Removes (word o c d) (o :: v) (o :: v) :=
    removes_self (.inr (by rw [List.mem_cons, not_or]; exact ⟨hoc.symm, hv⟩)) d
  exact ⟨x', Removes.unique (word_ne_nil o c d) h (hx.append_open hoc hd hself)⟩

/-- A closing symbol that nothing opens is left. -/
theorem Removes.unopened (hoc : o ≠ c) (hd : Bare o c d) (hv : o ∉ v)
    (h : Removes (word o c d) (v ++ c :: y) t') : ∃ y', t' = v ++ c :: y' := by
  obtain ⟨y', hy⟩ := exists_removes (word_ne_nil o c d) y
  have hend : ¬ o :: d <:+ v := fun hsuf => hv (hsuf.subset List.mem_cons_self)
  exact ⟨y', Removes.unique (word_ne_nil o c d) h
    ((removes_self (.inl hv) d).append_close hoc hd hend hy)⟩

/-- One word after the other is taken out. -/
inductive RemovesEach (o c : α) : List (List α) → List α → List α → Prop
  | nil (t : List α) : RemovesEach o c [] t t
  | cons {d : List α} {ds : List (List α)} {t u t' : List α} (h : Removes (word o c d) t u)
      (hs : RemovesEach o c ds u t') : RemovesEach o c (d :: ds) t t'

variable {ds : List (List α)}

theorem RemovesEach.unclosed (hoc : o ≠ c) (hds : ∀ d ∈ ds, Bare o c d) (hv : c ∉ v)
    (h : RemovesEach o c ds (x ++ o :: v) t') : o ∈ t' := by
  induction ds generalizing x with
  | nil =>
    cases h
    simp
  | cons d ds ih =>
    cases h with
    | cons h hs =>
      obtain ⟨x', rfl⟩ := h.unclosed hoc (hds d List.mem_cons_self) hv
      exact ih (fun d hd => hds d (List.mem_cons_of_mem _ hd)) hs

theorem RemovesEach.unopened (hoc : o ≠ c) (hds : ∀ d ∈ ds, Bare o c d) (hv : o ∉ v)
    (h : RemovesEach o c ds (v ++ c :: y) t') : c ∈ t' := by
  induction ds generalizing y with
  | nil =>
    cases h
    simp
  | cons d ds ih =>
    cases h with
    | cons h hs =>
      obtain ⟨y', rfl⟩ := h.unopened hoc (hds d List.mem_cons_self) hv
      exact ih (fun d hd => hds d (List.mem_cons_of_mem _ hd)) hs

/-- At the turn of one of the words the text reads that word. -/
def ComesUp (o c : α) (ds : List (List α)) (w : List α) : Prop :=
  ∃ ms d ls, ds = ms ++ d :: ls ∧ RemovesEach o c ms w d

theorem comesUp_cons {u : List α} (h : Removes (word o c d) w u) :
    ComesUp o c (d :: ds) w ↔ w = d ∨ ComesUp o c ds u := by
  constructor
  · rintro ⟨ms, e, ls, hs, hr⟩
    cases hr with
    | nil => exact .inl (List.cons.inj hs).1.symm
    | cons h' hr =>
      obtain ⟨rfl, hls⟩ := List.cons.inj hs
      obtain rfl := Removes.unique (word_ne_nil o c _) h h'
      exact .inr ⟨_, e, ls, hls, hr⟩
  · rintro (rfl | ⟨ms, e, ls, rfl, hr⟩)
    · exact ⟨[], w, ds, rfl, .nil w⟩
    · exact ⟨d :: ms, e, ls, rfl, .cons h hr⟩

/-- The bare words that are there when all have been taken out are what is left of the
stretches that never read the word whose turn it is. -/
theorem RemovesEach.word_iff (hoc : o ≠ c) (hds : ∀ d ∈ ds, Bare o c d) (hv : Bare o c v)
    (h : RemovesEach o c ds t t') :
    word o c v <:+: t' ↔
      ∃ w, word o c w <:+: t ∧ RemovesEach o c ds w v ∧ ¬ ComesUp o c ds w := by
  induction h with
  | nil t =>
    constructor
    · intro hw
      exact ⟨v, hw, .nil v, fun ⟨ms, d, ls, hs, _⟩ => by cases ms <;> cases hs⟩
    · rintro ⟨w, hw, hr, -⟩
      cases hr
      exact hw
  | @cons d ds t u t' hr _ ih =>
    have hd := hds d List.mem_cons_self
    have hds' : ∀ d ∈ ds, Bare o c d := fun d hd => hds d (List.mem_cons_of_mem _ hd)
    rw [ih hds']
    constructor
    · rintro ⟨w', hw', hr', hup⟩
      obtain ⟨w, hw, hout, hwr⟩ := (hr.word_iff hoc hd).mp hw'
      refine ⟨w, hw, .cons hwr hr', ?_⟩
      rw [comesUp_cons hwr, not_or]
      exact ⟨hout.other, hup⟩
    · rintro ⟨w, hw, hr', hup⟩
      cases hr' with
      | @cons _ _ _ w' _ hwr hrest =>
        rw [comesUp_cons hwr, not_or] at hup
        refine ⟨w', (hr.word_iff hoc hd).mpr ⟨w, hw, ⟨hup.1, ?_, ?_⟩, hwr⟩, hrest, hup.2⟩
        · rintro ⟨r, rfl⟩
          obtain ⟨y, rfl⟩ := Removes.unopened (y := r) hoc hd hd.1 (by simpa using hwr)
          exact hv.2 (hrest.unopened hoc hds' hd.1)
        · rintro ⟨r, rfl⟩
          obtain ⟨y, rfl⟩ := hwr.unclosed hoc hd hd.2
          exact hv.1 (hrest.unclosed hoc hds' hd.2)

end Words

section Thinning

variable {A : α → Prop} {q t t' : List α}

/-- Symbols outside `A` are left out, each before another symbol outside `A`. -/
inductive Thins (A : α → Prop) : List α → List α → Prop
  | nil : Thins A [] []
  | keep (a : α) {t t' : List α} (h : Thins A t t') : Thins A (a :: t) (a :: t')
  | drop {a b : α} {t t' : List α} (ha : ¬ A a) (hb : ¬ A b) (h : Thins A t (b :: t')) :
      Thins A (a :: t) (b :: t')

theorem Thins.prefix_iff (h : Thins A t t') (hq : ∀ a ∈ q, A a) : q <+: t ↔ q <+: t' := by
  induction h generalizing q with
  | nil => rfl
  | keep a _ ih =>
    cases q with
    | nil => simp
    | cons b q =>
      rw [List.cons_prefix_cons, List.cons_prefix_cons,
        ih fun a ha => hq a (List.mem_cons_of_mem b ha)]
  | @drop a b t t' ha hb _ _ =>
    cases q with
    | nil => simp
    | cons e q =>
      have he := hq e List.mem_cons_self
      constructor
      · intro hp
        exact absurd ((List.cons_prefix_cons.mp hp).1 ▸ he) ha
      · intro hp
        exact absurd ((List.cons_prefix_cons.mp hp).1 ▸ he) hb

/-- Texts over `A` are neither lost nor come about. -/
theorem Thins.infix_iff (h : Thins A t t') (hq : ∀ a ∈ q, A a) (hne : q ≠ []) :
    q <:+: t ↔ q <:+: t' := by
  induction h with
  | nil => rfl
  | keep a h ih => rw [List.infix_cons_iff, List.infix_cons_iff, ih, (h.keep a).prefix_iff hq]
  | @drop a b t t' ha _ _ ih =>
    rw [List.infix_cons_iff, ih]
    refine or_iff_right fun hp => ?_
    obtain ⟨e, q, rfl⟩ := List.exists_cons_of_ne_nil hne
    exact ha ((List.cons_prefix_cons.mp hp).1 ▸ hq e List.mem_cons_self)

/-- Nor at the front, where a text begins with a symbol that stays. -/
theorem infix_dropWhile {p : α → Bool} {a : α} (ha : p a = false) :
    a :: q <:+: t.dropWhile p ↔ a :: q <:+: t := by
  induction t with
  | nil => rfl
  | cons b t ih =>
    by_cases hb : p b = true
    · rw [List.dropWhile_cons_of_pos hb, ih, List.infix_cons_iff]
      refine (or_iff_right fun hp => ?_).symm
      rw [(List.cons_prefix_cons.mp hp).1, hb] at ha
      cases ha
    · rw [List.dropWhile_cons_of_neg hb]

end Thinning

end Excision
