import Mathlib

/-! Regular expressions with the order of a backtracking matcher: from a start
position the ends are tried in a fixed priority, the first end is the match, and
a scan yields non-overlapping matches from left to right. A declarative relation
says which spans match at all. -/

/-- `look` is a zero-width test on the characters before and after a position. -/
inductive Regex (α : Type*) where
  | eps
  | cls (p : α → Bool)
  | look (p : Option α → Option α → Bool)
  | seq (r s : Regex α)
  | alt (r s : Regex α)
  | star (r : Regex α)

namespace Regex

variable {α : Type*}

def prev (t : List α) : Nat → Option α
  | 0 => none
  | i + 1 => t[i]?

/-- Greedy iteration; a round that consumes nothing is not repeated. -/
def starEnds (ends : Nat → List Nat) : Nat → Nat → List Nat
  | 0, i => [i]
  | fuel + 1, i => ((ends i).filter (fun k => i < k)).flatMap (starEnds ends fuel) ++ [i]

/-- The ends of the matches that start at a position, most preferred first. -/
def ends (t : List α) : Regex α → Nat → List Nat
  | eps, i => [i]
  | cls p, i => if t[i]?.any p then [i + 1] else []
  | look p, i => if p (prev t i) t[i]? then [i] else []
  | seq r s, i => (ends t r i).flatMap (ends t s)
  | alt r s, i => ends t r i ++ ends t s i
  | star r, i => starEnds (ends t r) (t.length - i) i

inductive Matches (t : List α) : Regex α → Nat → Nat → Prop
  | eps (i : Nat) : Matches t eps i i
  | cls {p : α → Bool} {i : Nat} {c : α} (hc : t[i]? = some c) (hp : p c = true) :
      Matches t (cls p) i (i + 1)
  | look {p : Option α → Option α → Bool} {i : Nat} (hp : p (prev t i) t[i]? = true) :
      Matches t (look p) i i
  | seq {r s : Regex α} {i k j : Nat} (hr : Matches t r i k) (hs : Matches t s k j) :
      Matches t (seq r s) i j
  | altLeft {r s : Regex α} {i j : Nat} (hr : Matches t r i j) : Matches t (alt r s) i j
  | altRight {r s : Regex α} {i j : Nat} (hs : Matches t s i j) : Matches t (alt r s) i j
  | starNil {r : Regex α} (i : Nat) : Matches t (star r) i i
  | starCons {r : Regex α} {i k j : Nat} (hr : Matches t r i k) (hs : Matches t (star r) k j) :
      Matches t (star r) i j

def opt (r : Regex α) : Regex α := alt r eps

def times (r : Regex α) : Nat → Regex α
  | 0 => eps
  | n + 1 => seq r (times r n)

def upTo (r : Regex α) : Nat → Regex α
  | 0 => eps
  | n + 1 => opt (seq r (upTo r n))

/-- `r{lo,hi}`. -/
def rep (r : Regex α) (lo hi : Nat) : Regex α := seq (times r lo) (upTo r (hi - lo))

def plus (r : Regex α) : Regex α := seq r (star r)

def concat : List (Regex α) → Regex α
  | [] => eps
  | r :: rs => seq r (concat rs)

/-- The least number of characters a match consumes. -/
def minLen : Regex α → Nat
  | eps | look _ | star _ => 0
  | cls _ => 1
  | seq r s => minLen r + minLen s
  | alt r s => min (minLen r) (minLen s)

/-- The greedy left-to-right scan of a pattern that consumes: a match, then on from
its end. -/
def scan (t : List α) (r : Regex α) : Nat → Nat → List (Nat × Nat)
  | 0, _ => []
  | fuel + 1, pos =>
    match (ends t r pos).head? with
    | none => scan t r fuel (pos + 1)
    | some e => (pos, e) :: scan t r fuel (max e (pos + 1))

def finditer (r : Regex α) (t : List α) : List (Nat × Nat) := scan t r t.length 0

theorem Matches.minLen_le {t : List α} {r : Regex α} {i j : Nat} (h : Matches t r i j) :
    i + r.minLen ≤ j := by
  induction h with
  | eps | cls | look | starNil => simp [minLen]
  | seq _ _ ihr ihs => simp only [minLen]; omega
  | altLeft _ ih | altRight _ ih => simp only [minLen]; omega
  | starCons _ _ ihr ihs => simp only [minLen] at ihs ⊢; omega

theorem Matches.le {t : List α} {r : Regex α} {i j : Nat} (h : Matches t r i j) : i ≤ j :=
  Nat.le_trans (Nat.le_add_right i _) h.minLen_le

/-- What a match consumes lies in the text. -/
theorem Matches.le_length {t : List α} {r : Regex α} {i j : Nat} (h : Matches t r i j) :
    j = i ∨ j ≤ t.length := by
  induction h with
  | eps | look | starNil => exact .inl rfl
  | cls hc => exact .inr (List.getElem?_eq_some_iff.mp hc).1
  | altLeft _ ih | altRight _ ih => exact ih
  | seq hr hs ihr ihs | starCons hr hs ihr ihs =>
    have := hr.le
    have := hs.le
    omega

theorem mem_starEnds {step : Nat → List Nat} {t : List α} {r : Regex α}
    (hstep : ∀ i j, j ∈ step i ↔ Matches t r i j) (fuel i j : Nat)
    (h : j ∈ starEnds step fuel i) : Matches t (star r) i j := by
  induction fuel generalizing i with
  | zero =>
    simp only [starEnds, List.mem_singleton] at h
    exact h ▸ .starNil _
  | succ fuel ih =>
    simp only [starEnds, List.mem_append, List.mem_flatMap, List.mem_filter,
      List.mem_singleton] at h
    rcases h with ⟨k, ⟨hk, -⟩, hj⟩ | rfl
    · exact .starCons ((hstep i k).mp hk) (ih k hj)
    · exact .starNil _

theorem starEnds_complete {step : Nat → List Nat} {t : List α} {r : Regex α}
    (hstep : ∀ i j, Matches t r i j → j ∈ step i) {i j : Nat} (h : Matches t (star r) i j)
    (fuel : Nat) (hf : t.length ≤ i + fuel) : j ∈ starEnds step fuel i := by
  generalize hs : star r = s at h
  revert fuel
  induction h with
  | eps | cls | look | seq | altLeft | altRight => cases hs
  | starNil i => intro fuel _; cases fuel <;> simp [starEnds]
  | @starCons r' i k j hr hrest _ ih =>
    cases hs
    intro fuel hf
    by_cases hk : i < k
    · -- a round that consumes leaves fuel for the rest, as the text is finite
      have hlen := hr.le_length
      cases fuel with
      | zero => omega
      | succ fuel =>
        simp only [starEnds, List.mem_append, List.mem_flatMap, List.mem_filter]
        exact .inl ⟨k, ⟨hstep i k hr, by simpa using hk⟩, ih rfl fuel (by omega)⟩
    · have he : k = i := by have := hr.le; omega
      subst he
      exact ih rfl fuel hf

/-- The matcher tries exactly the spans that match. -/
theorem mem_ends_iff {t : List α} {r : Regex α} {i j : Nat} :
    j ∈ ends t r i ↔ Matches t r i j := by
  induction r generalizing i j with
  | eps =>
    simp only [ends, List.mem_singleton]
    exact ⟨fun h => by subst h; exact .eps _, fun h => by cases h; rfl⟩
  | cls p =>
    constructor
    · intro h
      cases hc : t[i]? with
      | none => simp [ends, hc] at h
      | some c =>
        by_cases hp : p c = true
        · simp only [ends, hc, Option.any_some, hp, if_true, List.mem_singleton] at h
          exact h ▸ .cls hc hp
        · simp [ends, hc, hp] at h
    · intro h
      cases h with
      | cls hc hp => simp [ends, hc, hp]
  | look p =>
    constructor
    · intro h
      by_cases hp : p (prev t i) t[i]? = true
      · simp only [ends, hp, if_true, List.mem_singleton] at h
        subst h
        exact .look hp
      · simp [ends, hp] at h
    · intro h
      cases h with
      | look hp => simp [ends, hp]
  | seq r s ihr ihs =>
    simp only [ends, List.mem_flatMap]
    constructor
    · rintro ⟨k, hk, hj⟩
      exact .seq (ihr.mp hk) (ihs.mp hj)
    · intro h
      cases h with
      | seq hr hs => exact ⟨_, ihr.mpr hr, ihs.mpr hs⟩
  | alt r s ihr ihs =>
    simp only [ends, List.mem_append]
    constructor
    · rintro (h | h)
      · exact .altLeft (ihr.mp h)
      · exact .altRight (ihs.mp h)
    · intro h
      cases h with
      | altLeft hr => exact .inl (ihr.mpr hr)
      | altRight hs => exact .inr (ihs.mpr hs)
  | star r ih =>
    exact ⟨mem_starEnds (fun _ _ => ih) _ i j,
      fun h => starEnds_complete (fun _ _ => ih.mpr) h _ (by omega)⟩

section Order

variable {β : Type*} {t : List α} {p : α → Bool} {i : Nat}

theorem ends_star_stop (h : t[i]?.any p = false) : ends t (star (cls p)) i = [i] := by
  have hstep : ends t (cls p) i = [] := by simp [ends, h]
  rw [ends]
  cases t.length - i with
  | zero => rfl
  | succ fuel => simp [starEnds, hstep]

theorem ends_star_step (h : t[i]?.any p = true) :
    ends t (star (cls p)) i = ends t (star (cls p)) (i + 1) ++ [i] := by
  have hstep : ends t (cls p) i = [i + 1] := by simp [ends, h]
  have hlt : i < t.length := by
    by_contra hge
    simp [List.getElem?_eq_none (Nat.le_of_not_lt hge)] at h
  obtain ⟨fuel, hfuel⟩ : ∃ fuel, t.length - i = fuel + 1 := ⟨t.length - i - 1, by omega⟩
  have hrest : t.length - (i + 1) = fuel := by omega
  rw [ends, ends, hfuel, hrest]
  simp [starEnds, hstep]

/-- A repetition of a class takes all it can. -/
theorem head?_ends_star (t : List α) (p : α → Bool) (i : Nat) :
    (ends t (star (cls p)) i).head? = some (i + ((t.drop i).takeWhile p).length) := by
  induction hd : t.drop i generalizing i with
  | nil =>
    have hnone : t[i]? = none := by rw [← List.head?_drop, hd, List.head?_nil]
    rw [ends_star_stop (by rw [hnone]; rfl)]
    rfl
  | cons c rest ih =>
    have hc : t[i]? = some c := by rw [← List.head?_drop, hd, List.head?_cons]
    have hrest : t.drop (i + 1) = rest := by rw [← List.drop_drop, hd, List.drop_one, List.tail_cons]
    by_cases hp : p c = true
    · rw [ends_star_step (by simpa [hc] using hp), List.head?_append, ih _ hrest,
        List.takeWhile_cons_of_pos hp, List.length_cons]
      exact congrArg some (by omega)
    · rw [ends_star_stop (by simpa [hc] using hp), List.takeWhile_cons_of_neg hp]
      rfl

/-- As little as possible: the ends of a bounded repetition, the other way round. -/
theorem reverse_ends_upTo (n : Nat) : (ends t (upTo (cls p) (n + 1)) i).reverse =
    i :: if t[i]?.any p = true then (ends t (upTo (cls p) n) (i + 1)).reverse else [] := by
  by_cases h : t[i]?.any p = true <;> simp [upTo, opt, ends, h]

/-- What follows a repetition of as little as possible is tried from the start on, and the first
place where it matches is taken. -/
theorem head?_lazy {body : Nat → List β} {b : β} {k n : Nat} (hk : k ≤ n)
    (hskip : ∀ m < k, body (i + m) = [] ∧ t[i + m]?.any p = true)
    (hit : (body (i + k)).head? = some b) :
    (((ends t (upTo (cls p) n) i).reverse).flatMap body).head? = some b := by
  induction k generalizing i n with
  | zero =>
    cases n with
    | zero => simpa [upTo, ends] using hit
    | succ n =>
      rw [reverse_ends_upTo, List.flatMap_cons, List.head?_append, show body i = body (i + 0) from rfl,
        hit]
      rfl
  | succ k ih =>
    obtain ⟨n, rfl⟩ : ∃ m, n = m + 1 := ⟨n - 1, by omega⟩
    obtain ⟨hnil, hp⟩ := hskip 0 (by omega)
    rw [Nat.add_zero] at hnil hp
    rw [reverse_ends_upTo, if_pos hp, List.flatMap_cons, hnil, List.nil_append]
    refine ih (by omega) (fun m hm => ?_) ?_
    · have := hskip (m + 1) (by omega)
      rwa [show i + 1 + m = i + (m + 1) by omega]
    · rwa [show i + 1 + k = i + (k + 1) by omega]

end Order

section Classes

variable {t z : List α} {p : α → Bool} {c : α} {cs : List α} {i j : Nat}

theorem matches_cls_iff : Matches t (cls p) i j ↔
    j = i + 1 ∧ ∃ c, p c = true ∧ t.drop i = c :: t.drop j := by
  constructor
  · intro h
    cases h with
    | cls hc hp =>
      obtain ⟨hlt, rfl⟩ := List.getElem?_eq_some_iff.mp hc
      exact ⟨rfl, _, hp, List.drop_eq_getElem_cons hlt⟩
  · rintro ⟨rfl, c, hp, hd⟩
    refine .cls ?_ hp
    rw [← List.head?_drop, hd]
    rfl

/-- A run of a class is a piece of the text with all its characters in the class. -/
theorem matches_star_cls_iff : Matches t (star (cls p)) i j ↔
    ∃ cs, (∀ c ∈ cs, p c = true) ∧ j = i + cs.length ∧ t.drop i = cs ++ t.drop j := by
  constructor
  · intro h
    generalize hr : star (cls p) = r at h
    induction h with
    | eps | cls | look | seq | altLeft | altRight => cases hr
    | starNil i => exact ⟨[], nofun, rfl, rfl⟩
    | starCons hc _ _ ih =>
      cases hr
      obtain ⟨rfl, c, hp, hd⟩ := matches_cls_iff.mp hc
      obtain ⟨cs, hcs, rfl, hds⟩ := ih rfl
      refine ⟨c :: cs, List.forall_mem_cons.mpr ⟨hp, hcs⟩, by simp; omega, ?_⟩
      rw [hd, hds]
      rfl
  · rintro ⟨cs, hcs, rfl, hd⟩
    induction cs generalizing i with
    | nil => exact .starNil i
    | cons c cs ih =>
      obtain ⟨hp, hcs⟩ := List.forall_mem_cons.mp hcs
      have hnext : t.drop (i + 1) = cs ++ t.drop (i + 1 + cs.length) := by
        rw [← List.drop_drop, hd]
        simp [Nat.add_right_comm, Nat.add_assoc]
      refine .starCons (matches_cls_iff.mpr ⟨rfl, c, hp, ?_⟩) ?_
      · rw [hd, hnext]
        simp [Nat.add_right_comm, Nat.add_assoc]
      · have hrest := ih hcs hnext
        rwa [Nat.add_assoc, Nat.add_comm 1, ← List.length_cons] at hrest

end Classes

theorem scan_start_le {t : List α} {r : Regex α} {fuel pos : Nat} {m : Nat × Nat}
    (hm : m ∈ scan t r fuel pos) : pos ≤ m.1 := by
  induction fuel generalizing pos with
  | zero => simp [scan] at hm
  | succ fuel ih =>
    simp only [scan] at hm
    split at hm
    · have := ih hm
      omega
    · rcases List.mem_cons.mp hm with rfl | hm
      · exact Nat.le_refl _
      · have := ih hm
        omega

theorem scan_matches {t : List α} {r : Regex α} {fuel pos : Nat} {m : Nat × Nat}
    (hm : m ∈ scan t r fuel pos) : Matches t r m.1 m.2 := by
  induction fuel generalizing pos with
  | zero => simp [scan] at hm
  | succ fuel ih =>
    simp only [scan] at hm
    split at hm
    · exact ih hm
    · rename_i e he
      rcases List.mem_cons.mp hm with rfl | hm
      · exact mem_ends_iff.mp (List.mem_of_mem_head? he)
      · exact ih hm

theorem scan_pairwise (t : List α) (r : Regex α) (fuel pos : Nat) :
    (scan t r fuel pos).Pairwise (fun a b => a.2 ≤ b.1) := by
  induction fuel generalizing pos with
  | zero => simp [scan]
  | succ fuel ih =>
    simp only [scan]
    split
    · exact ih _
    · rw [List.pairwise_cons]
      refine ⟨fun m hm => ?_, ih _⟩
      have := scan_start_le hm
      omega

/-- The scan does not pass over the start of a match without yielding a match
around it. -/
theorem scan_covers {t : List α} {r : Regex α} (hr : 0 < r.minLen) {fuel pos s e : Nat}
    (hf : t.length ≤ pos + fuel) (hp : pos ≤ s) (h : Matches t r s e) :
    ∃ m ∈ scan t r fuel pos, m.1 ≤ s ∧ s < m.2 := by
  have hse := h.minLen_le
  have hlen := h.le_length
  induction fuel generalizing pos with
  | zero => omega
  | succ fuel ih =>
    simp only [scan]
    cases he : (ends t r pos).head? with
    | none =>
      have hps : pos ≠ s := by
        rintro rfl
        have := mem_ends_iff.mpr h
        rw [List.head?_eq_none_iff.mp he] at this
        cases this
      exact ih (by omega) (by omega)
    | some e' =>
      have hm := (mem_ends_iff.mp (List.mem_of_mem_head? he)).minLen_le
      by_cases hs : s < e'
      · exact ⟨(pos, e'), by simp, hp, hs⟩
      · obtain ⟨m, hm', hms⟩ := @ih (max e' (pos + 1)) (by omega) (by omega)
        exact ⟨m, List.mem_cons_of_mem _ hm', hms⟩

theorem finditer_covers {t : List α} {r : Regex α} (hr : 0 < r.minLen) {s e : Nat}
    (h : Matches t r s e) : ∃ m ∈ finditer r t, m.1 ≤ s ∧ s < m.2 :=
  scan_covers hr (by omega) (Nat.zero_le s) h

section Split

/-- What is left of the text from `p` on when the spans are cut out. -/
def between (t : List α) : Nat → List (Nat × Nat) → List (List α)
  | p, [] => [t.drop p]
  | p, m :: ms => (t.drop p).take (m.1 - p) :: between t m.2 ms

/-- `re.split` by a pattern that consumes. -/
def split (r : Regex α) (t : List α) : List (List α) := between t 0 (finditer r t)

/-- From `p` on the spans follow one another in the text, and none is empty. -/
def Apart (t : List α) : Nat → List (Nat × Nat) → Prop
  | p, [] => p ≤ t.length
  | p, m :: ms => p ≤ m.1 ∧ m.1 < m.2 ∧ Apart t m.2 ms

variable {t : List α} {r : Regex α} {p : Nat} {ms : List (Nat × Nat)}

theorem Apart.le_length (h : Apart t p ms) : p ≤ t.length := by
  induction ms generalizing p with
  | nil => exact h
  | cons m ms ih =>
    obtain ⟨hp, hm, hms⟩ := h
    have := ih hms
    omega

theorem apart_of_pairwise (hp : p ≤ t.length) (hms : ∀ m ∈ ms, p ≤ m.1 ∧ m.1 < m.2 ∧ m.2 ≤ t.length)
    (h : ms.Pairwise (fun a b => a.2 ≤ b.1)) : Apart t p ms := by
  induction ms generalizing p with
  | nil => exact hp
  | cons m ms ih =>
    obtain ⟨hm, h⟩ := List.pairwise_cons.mp h
    obtain ⟨hpm, hlt, hle⟩ := hms m (by simp)
    refine ⟨hpm, hlt, ih hle (fun k hk => ?_) h⟩
    have := hms k (by simp [hk])
    exact ⟨hm k hk, this.2⟩

theorem finditer_apart (hr : 0 < r.minLen) : Apart t 0 (finditer r t) := by
  apply apart_of_pairwise (Nat.zero_le _) _ (scan_pairwise t r _ _)
  intro m hm
  have h := scan_matches hm
  have hmin := h.minLen_le
  have hlen := h.le_length
  omega

/-- Cutting out what a test rejects leaves what it accepts. -/
theorem between_filter {q : α → Bool} (h : Apart t p ms)
    (hq : ∀ m ∈ ms, ∀ c ∈ (t.drop m.1).take (m.2 - m.1), q c = false) :
    (between t p ms).flatMap (List.filter q) = (t.drop p).filter q := by
  induction ms generalizing p with
  | nil => simp [between]
  | cons m ms ih =>
    obtain ⟨hp, hm, hms⟩ := h
    have hcut : t.drop p = (t.drop p).take (m.1 - p) ++ ((t.drop m.1).take (m.2 - m.1) ++ t.drop m.2) := by
      conv_lhs => rw [← List.take_append_drop (m.1 - p) (t.drop p), List.drop_drop,
        Nat.add_sub_cancel' hp]
      congr 1
      conv_lhs => rw [← List.take_append_drop (m.2 - m.1) (t.drop m.1), List.drop_drop,
        Nat.add_sub_cancel' (Nat.le_of_lt hm)]
    have hgone : ((t.drop m.1).take (m.2 - m.1)).filter q = [] :=
      List.filter_eq_nil_iff.mpr (fun c hc => by simp [hq m (by simp) c hc])
    rw [between, List.flatMap_cons, ih hms (fun k hk => hq k (by simp [hk]))]
    conv_rhs => rw [hcut, List.filter_append, List.filter_append, hgone]
    simp

/-- Every span that is cut out takes a symbol of the text. -/
theorem between_length (h : Apart t p ms) :
    ((between t p ms).map List.length).sum + ms.length + p ≤ t.length := by
  induction ms generalizing p with
  | nil =>
    have hp : p ≤ t.length := h
    simp [between]
    omega
  | cons m ms ih =>
    obtain ⟨hp, hm, hms⟩ := h
    have := ih hms
    have hlen := hms.le_length
    simp only [between, List.map_cons, List.sum_cons, List.length_take, List.length_drop,
      List.length_cons]
    omega

theorem length_between (t : List α) (p : Nat) (ms : List (Nat × Nat)) :
    (between t p ms).length = ms.length + 1 := by
  induction ms generalizing p with
  | nil => rfl
  | cons m ms ih => simp [between, ih]

/-- Every class of the pattern is part of `q`. -/
def Within (q : α → Bool) : Regex α → Prop
  | eps | look _ => True
  | cls p => ∀ c, p c = true → q c = true
  | seq r s | alt r s => Within q r ∧ Within q s
  | star r => Within q r

/-- Then so is all that a match consumes. -/
theorem Matches.within {q : α → Bool} {i j : Nat} (h : Matches t r i j) (hr : Within q r) :
    ∀ c ∈ (t.drop i).take (j - i), q c = true := by
  have hcut : ∀ {i k j : Nat}, i ≤ k → k ≤ j →
      (t.drop i).take (j - i) = (t.drop i).take (k - i) ++ (t.drop k).take (j - k) := by
    intro i k j hik hkj
    have hk : k = i + (k - i) := by omega
    have hj : j - i = (k - i) + (j - k) := by omega
    rw [hj, List.take_add, List.drop_drop, ← hk]
  induction h with
  | eps | look | starNil => simp
  | cls hc hp =>
    obtain ⟨hlt, rfl⟩ := List.getElem?_eq_some_iff.mp hc
    rw [List.drop_eq_getElem_cons hlt]
    simp only [Nat.add_sub_cancel_left, List.take_succ_cons, List.take_zero, List.mem_singleton]
    rintro c rfl
    exact hr _ hp
  | altLeft _ ih => exact ih hr.1
  | altRight _ ih => exact ih hr.2
  | seq hr' hs ihr ihs =>
    rw [hcut hr'.le hs.le]
    exact fun c hc => (List.mem_append.mp hc).elim (ihr hr.1 c) (ihs hr.2 c)
  | starCons hr' hs ihr ihs =>
    rw [hcut hr'.le hs.le]
    exact fun c hc => (List.mem_append.mp hc).elim (ihr hr c) (ihs hr c)

theorem split_filter (hr : 0 < r.minLen) {q : α → Bool} (hq : Within q r) :
    (split r t).flatMap (List.filter fun c => !q c) = t.filter fun c => !q c := by
  have h := between_filter (q := fun c => !q c) (finditer_apart (t := t) hr)
    (fun m hm c hc => by simp [(scan_matches hm).within hq c hc])
  simpa only [split, List.drop_zero] using h

/-- What stands before every match is in the first part. -/
theorem split_first {n : Nat} (h : ∀ i j, Matches t r i j → n ≤ i) :
    ∃ first rest, split r t = first :: rest ∧ t.take n <+: first := by
  cases hms : finditer r t with
  | nil =>
    refine ⟨t, [], ?_, List.take_prefix n t⟩
    simp [split, hms, between]
  | cons m ms =>
    have hn : n ≤ m.1 := h _ _ (scan_matches (hms ▸ List.mem_cons_self (l := ms)))
    refine ⟨t.take m.1, between t m.2 ms, ?_, List.take_prefix_take_left hn⟩
    simp [split, hms, between]

theorem split_length (hr : 0 < r.minLen) :
    ((split r t).map List.length).sum + (split r t).length ≤ t.length + 1 := by
  have h := between_length (finditer_apart (t := t) hr)
  have hn := length_between t 0 (finditer r t)
  simp only [split]
  omega

end Split

section Local

variable {t : List α} {r : Regex α}

def LookFree : Regex α → Prop
  | eps | cls _ => True
  | look _ => False
  | seq r s | alt r s => LookFree r ∧ LookFree s
  | star r => LookFree r

/-- Without a look a match is a matter of what it consumes, wherever that stands. -/
theorem Matches.transfer {i j : Nat} (h : Matches t r i j) (hr : LookFree r) {t' : List α} {i' : Nat}
    (hagree : ∀ k, i + k < j → t[i + k]? = t'[i' + k]?) : Matches t' r i' (i' + (j - i)) := by
  induction h generalizing i' with
  | eps | starNil => simpa using by constructor
  | look => exact hr.elim
  | @cls p i c hc hp =>
    have hc' := hagree 0 (by omega)
    rw [Nat.add_zero, Nat.add_zero, hc] at hc'
    simpa using Matches.cls hc'.symm hp
  | altLeft _ ih => exact .altLeft (ih hr.1 hagree)
  | altRight _ ih => exact .altRight (ih hr.2 hagree)
  | @seq r s i k j hr' hs ihr ihs =>
    have hik := hr'.le
    have hkj := hs.le
    have h1 : Matches t' r i' (i' + (k - i)) := ihr hr.1 fun m hm => hagree m (by omega)
    have h2 : Matches t' s (i' + (k - i)) (i' + (k - i) + (j - k)) := ihs hr.2 fun m hm => by
      have := hagree (k - i + m) (by omega)
      rwa [show i + (k - i + m) = k + m by omega, ← Nat.add_assoc] at this
    rw [show i' + (j - i) = i' + (k - i) + (j - k) by omega]
    exact .seq h1 h2
  | @starCons r i k j hr' hs ihr ihs =>
    have hik := hr'.le
    have hkj := hs.le
    have h1 : Matches t' r i' (i' + (k - i)) := ihr hr fun m hm => hagree m (by omega)
    have h2 : Matches t' (star r) (i' + (k - i)) (i' + (k - i) + (j - k)) := ihs hr fun m hm => by
      have := hagree (k - i + m) (by omega)
      rwa [show i + (k - i + m) = k + m by omega, ← Nat.add_assoc] at this
    rw [show i' + (j - i) = i' + (k - i) + (j - k) by omega]
    exact .starCons h1 h2

theorem scan_skip {fuel pos k : Nat} (h : ∀ i, pos ≤ i → i < pos + k → ends t r i = []) :
    scan t r (fuel + k) pos = scan t r fuel (pos + k) := by
  induction k generalizing pos with
  | zero => rfl
  | succ k ih =>
    rw [← Nat.add_assoc, scan, h pos (by omega) (by omega)]
    rw [List.head?_nil, ih fun i hi hik => h i (by omega) (by omega), Nat.add_assoc, Nat.add_comm 1 k]

theorem scan_end (hr : 0 < r.minLen) {fuel pos : Nat} (hpos : t.length ≤ pos) :
    scan t r fuel pos = [] := by
  induction fuel generalizing pos with
  | zero => rfl
  | succ fuel ih =>
    have hnone : ends t r pos = [] := by
      refine List.eq_nil_iff_forall_not_mem.mpr fun e he => ?_
      have h := mem_ends_iff.mp he
      have hmin := h.minLen_le
      have hlen := h.le_length
      omega
    rw [scan, hnone]
    exact ih (by omega)

end Local

section Spelling

variable {t v : List α} {r r' : Regex α} {p : α → Bool} {n lo hi i j : Nat}

/-- What a pattern can consume, wherever it stands. -/
inductive Spells : Regex α → List α → Prop
  | eps : Spells eps []
  | cls {p : α → Bool} {c : α} (hp : p c = true) : Spells (cls p) [c]
  | look (p : Option α → Option α → Bool) : Spells (look p) []
  | seq {r s : Regex α} {x y : List α} (hr : Spells r x) (hs : Spells s y) :
      Spells (seq r s) (x ++ y)
  | altLeft {r s : Regex α} {x : List α} (hr : Spells r x) : Spells (alt r s) x
  | altRight {r s : Regex α} {x : List α} (hs : Spells s x) : Spells (alt r s) x
  | starNil {r : Regex α} : Spells (star r) []
  | starCons {r : Regex α} {x y : List α} (hr : Spells r x) (hs : Spells (star r) y) :
      Spells (star r) (x ++ y)

theorem take_drop_append {k : Nat} (hik : i ≤ k) (hkj : k ≤ j) (t : List α) :
    (t.take k).drop i ++ (t.take j).drop k = (t.take j).drop i := by
  have h := List.take_append_drop (k - i) ((t.take j).drop i)
  rw [List.drop_drop, Nat.add_sub_cancel' hik, List.take_drop, List.take_take,
    Nat.min_eq_left (by omega), Nat.add_sub_cancel' hik] at h
  exact h

theorem Matches.spells (h : Matches t r i j) : Spells r ((t.take j).drop i) := by
  have hempty : ∀ i, (t.take i).drop i = [] := fun i =>
    List.drop_eq_nil_of_le (List.length_take_le i t)
  induction h with
  | eps i =>
    rw [hempty]
    exact .eps
  | @cls p i c hc hp =>
    have hone : (t.take (i + 1)).drop i = [c] := by
      obtain ⟨hlt, rfl⟩ := List.getElem?_eq_some_iff.mp hc
      rw [List.drop_take, Nat.add_sub_cancel_left, List.drop_eq_getElem_cons hlt]
      rfl
    rw [hone]
    exact .cls hp
  | look =>
    rw [hempty]
    exact .look _
  | seq hr hs ihr ihs =>
    rw [← take_drop_append hr.le hs.le]
    exact .seq ihr ihs
  | altLeft _ ih => exact .altLeft ih
  | altRight _ ih => exact .altRight ih
  | starNil =>
    rw [hempty]
    exact .starNil
  | starCons hr hs ihr ihs =>
    rw [← take_drop_append hr.le hs.le]
    exact .starCons ihr ihs

theorem spells_cls_iff : Spells (cls p) v ↔ ∃ c, p c = true ∧ v = [c] := by
  constructor
  · intro h
    cases h with
    | cls hp => exact ⟨_, hp, rfl⟩
  · rintro ⟨c, hp, rfl⟩
    exact .cls hp

theorem spells_seq_iff : Spells (seq r r') v ↔ ∃ x y, v = x ++ y ∧ Spells r x ∧ Spells r' y := by
  constructor
  · intro h
    cases h with
    | seq hr hs => exact ⟨_, _, rfl, hr, hs⟩
  · rintro ⟨x, y, rfl, hr, hs⟩
    exact .seq hr hs

theorem spells_alt_iff : Spells (alt r r') v ↔ Spells r v ∨ Spells r' v := by
  constructor
  · intro h
    cases h with
    | altLeft h => exact .inl h
    | altRight h => exact .inr h
  · rintro (h | h)
    · exact .altLeft h
    · exact .altRight h

theorem spells_eps_iff : Spells eps v ↔ v = [] := by
  constructor
  · intro h
    cases h
    rfl
  · rintro rfl
    exact .eps

theorem spells_opt_iff : Spells (opt r) v ↔ Spells r v ∨ v = [] := by
  rw [opt, spells_alt_iff, spells_eps_iff]

theorem spells_times_cls (h : Spells (times (cls p) n) v) :
    v.length = n ∧ ∀ c ∈ v, p c = true := by
  induction n generalizing v with
  | zero =>
    rw [times, spells_eps_iff] at h
    simp [h]
  | succ n ih =>
    obtain ⟨x, y, rfl, hx, hy⟩ := spells_seq_iff.mp h
    obtain ⟨c, hp, rfl⟩ := spells_cls_iff.mp hx
    obtain ⟨hlen, hall⟩ := ih hy
    exact ⟨by simp [hlen], by simpa [hp] using hall⟩

theorem spells_upTo_cls (h : Spells (upTo (cls p) n) v) : ∀ c ∈ v, p c = true := by
  induction n generalizing v with
  | zero =>
    rw [upTo, spells_eps_iff] at h
    simp [h]
  | succ n ih =>
    rcases spells_opt_iff.mp h with h | rfl
    · obtain ⟨x, y, rfl, hx, hy⟩ := spells_seq_iff.mp h
      obtain ⟨c, hp, rfl⟩ := spells_cls_iff.mp hx
      simpa [hp] using ih hy
    · exact List.forall_mem_nil _

theorem spells_rep_cls (h : Spells (rep (cls p) lo hi) v) :
    lo ≤ v.length ∧ ∀ c ∈ v, p c = true := by
  obtain ⟨x, y, rfl, hx, hy⟩ := spells_seq_iff.mp h
  obtain ⟨hlen, hx⟩ := spells_times_cls hx
  rw [List.length_append, List.forall_mem_append]
  exact ⟨by omega, hx, spells_upTo_cls hy⟩

theorem spells_star_cls (h : Spells (star (cls p)) v) : ∀ c ∈ v, p c = true := by
  generalize hr : star (cls p) = r at h
  induction h with
  | starNil => exact List.forall_mem_nil _
  | starCons hc _ _ ih =>
    cases hr
    obtain ⟨c, hp, rfl⟩ := spells_cls_iff.mp hc
    simpa [hp] using ih rfl
  | eps | cls | look | seq | altLeft | altRight => cases hr

theorem spells_plus_cls (h : Spells (plus (cls p)) v) : v ≠ [] ∧ ∀ c ∈ v, p c = true := by
  obtain ⟨x, y, rfl, hx, hy⟩ := spells_seq_iff.mp h
  obtain ⟨c, hp, rfl⟩ := spells_cls_iff.mp hx
  exact ⟨by simp, by simpa [hp] using spells_star_cls hy⟩

end Spelling

end Regex
