import Mathlib.Data.List.Basic

/-! Replacing disjoint spans of a list. Done from the right, one span at a time, the
offsets of the spans to the left stay valid, and the result is that of replacing
all the spans at once. -/

namespace Splice

variable {α : Type*}

/-- Write `new` over the elements from `start` up to `stop`. -/
structure Edit (α : Type*) where
  start : Nat
  stop : Nat
  new : List α

def Edit.apply (e : Edit α) (t : List α) : List α := t.take e.start ++ e.new ++ t.drop e.stop

/-- The list from position `p` on with all the spans replaced at once. -/
def splice (t : List α) : Nat → List (Edit α) → List α
  | p, [] => t.drop p
  | p, e :: es => (t.take e.start).drop p ++ e.new ++ splice t e.stop es

/-- Every element of the result is one of the list or was written in by an edit. -/
theorem mem_splice {t : List α} {p : Nat} {es : List (Edit α)} {a : α} (h : a ∈ splice t p es) :
    a ∈ t ∨ ∃ e ∈ es, a ∈ e.new := by
  induction es generalizing p with
  | nil => exact .inl (List.mem_of_mem_drop h)
  | cons e es ih =>
    simp only [splice, List.mem_append] at h
    rcases h with (h | h) | h
    · exact .inl (List.mem_of_mem_take (List.mem_of_mem_drop h))
    · exact .inr ⟨e, by simp, h⟩
    · rcases ih h with h | ⟨e', he', h⟩
      · exact .inl h
      · exact .inr ⟨e', by simp [he'], h⟩

/-- What an edit writes is there. -/
theorem new_infix_splice {t : List α} {p : Nat} {es : List (Edit α)} {e : Edit α} (he : e ∈ es) :
    e.new <:+: splice t p es := by
  induction es generalizing p with
  | nil => cases he
  | cons e' es ih =>
    rw [splice]
    rcases List.mem_cons.mp he with rfl | he
    · exact (List.suffix_append _ _).isInfix.trans (List.prefix_append _ _).isInfix
    · exact (ih he).trans (List.suffix_append _ _).isInfix

/-- From `p` on the spans follow one another, and the last one ends in the list. -/
def Ordered (t : List α) : Nat → List (Edit α) → Prop
  | p, [] => p ≤ t.length
  | p, e :: es => p ≤ e.start ∧ e.start ≤ e.stop ∧ Ordered t e.stop es

theorem Ordered.le_length {t : List α} {p : Nat} {es : List (Edit α)} (h : Ordered t p es) :
    p ≤ t.length := by
  induction es generalizing p with
  | nil => exact h
  | cons e es ih =>
    have he := ih h.2.2
    have hp := h.1
    have hse := h.2.1
    omega

theorem ordered_of_pairwise {t : List α} {es : List (Edit α)} {p : Nat} (hp : p ≤ t.length)
    (hpe : ∀ e ∈ es, p ≤ e.start) (hse : ∀ e ∈ es, e.start ≤ e.stop ∧ e.stop ≤ t.length)
    (hd : es.Pairwise (fun a b => a.stop ≤ b.start)) : Ordered t p es := by
  induction es generalizing p with
  | nil => exact hp
  | cons e es ih =>
    obtain ⟨hd1, hd2⟩ := List.pairwise_cons.mp hd
    obtain ⟨h1, h2⟩ := hse e (by simp)
    refine ⟨hpe e (by simp), h1, ih h2 hd1 ?_ hd2⟩
    intro f hf
    exact hse f (by simp [hf])

theorem foldr_apply {t : List α} {p : Nat} {es : List (Edit α)} (h : Ordered t p es) :
    es.foldr Edit.apply t = t.take p ++ splice t p es := by
  induction es generalizing p with
  | nil => simp [splice]
  | cons e es ih =>
    obtain ⟨hp, hse, hrest⟩ := h
    have hlen := hrest.le_length
    have htake : t.take p ++ (t.take e.start).drop p = t.take e.start := by
      have h0 : t.take p = (t.take e.start).take p := by rw [List.take_take, Nat.min_eq_left hp]
      rw [h0, List.take_append_drop]
    have hs : (t.take e.stop).length = e.stop := by simp [hlen]
    rw [List.foldr_cons, ih hrest, Edit.apply, splice]
    rw [List.take_append_of_le_length (by omega), List.take_take, Nat.min_eq_left hse]
    rw [List.drop_append_of_le_length (by omega), List.drop_of_length_le (by omega),
      List.nil_append]
    rw [← List.append_assoc, ← List.append_assoc, htake]

/-- Up to the first edit the list stays. -/
theorem splice_advance {t : List α} {p q : Nat} {es : List (Edit α)} (hpq : p ≤ q)
    (hq : q ≤ t.length) (hes : ∀ e ∈ es, q ≤ e.start) :
    splice t p es = (t.drop p).take (q - p) ++ splice t q es := by
  have hcut : ∀ n, q ≤ n → (t.take n).drop p = (t.drop p).take (q - p) ++ (t.take n).drop q := by
    intro n hn
    have htake : (t.drop p).take (q - p) = (t.take q).drop p := by
      rw [List.drop_take]
    rw [htake]
    have h := List.take_append_drop q (t.take n)
    rw [List.take_take, Nat.min_eq_left hn] at h
    conv_lhs => rw [← h]
    rw [List.drop_append_of_le_length (by simp; omega)]
  cases es with
  | nil =>
    have h := hcut t.length hq
    rwa [List.take_length] at h
  | cons e es =>
    rw [splice, splice, hcut e.start (hes e (by simp)), List.append_assoc, List.append_assoc,
      List.append_assoc]

/-- A piece no edit touches is still there. -/
theorem infix_splice {t : List α} {p m n : Nat} {es : List (Edit α)} (h : Ordered t p es)
    (hpm : p ≤ m) (hmn : m ≤ n) (hn : n ≤ t.length) (hout : ∀ e ∈ es, e.stop ≤ m ∨ n ≤ e.start) :
    (t.take n).drop m <:+: splice t p es := by
  induction es generalizing p with
  | nil =>
    rw [splice]
    have h1 : (t.take n).drop m <+: t.drop m := by
      rw [List.drop_take]
      exact List.take_prefix _ _
    have h2 : t.drop m <:+ t.drop p := by
      rw [show m = p + (m - p) by omega, ← List.drop_drop]
      exact List.drop_suffix _ _
    exact h1.isInfix.trans h2.isInfix
  | cons e es ih =>
    obtain ⟨hpe, hse, hrest⟩ := h
    rw [splice]
    rcases hout e (by simp) with hstop | hstart
    · exact (ih hrest hstop fun f hf => hout f (by simp [hf])).trans (List.suffix_append _ _).isInfix
    · have h1 : (t.take n).drop m <:+: (t.take e.start).drop p := by
        have hpre : t.take n <+: t.take e.start := List.take_prefix_take_left hstart
        have hdrop : (t.take n).drop m <+: (t.take e.start).drop m := by
          obtain ⟨z, hz⟩ := hpre
          rw [← hz, List.drop_append_of_le_length (by simp; omega)]
          exact List.prefix_append _ _
        have hsuf : (t.take e.start).drop m <:+ (t.take e.start).drop p := by
          rw [show m = p + (m - p) by omega, ← List.drop_drop]
          exact List.drop_suffix _ _
        exact hdrop.isInfix.trans hsuf.isInfix
      exact h1.trans ((List.prefix_append _ _).trans (List.prefix_append _ _)).isInfix

theorem Ordered.start_le {t : List α} {p : Nat} {es : List (Edit α)} (h : Ordered t p es) :
    ∀ e ∈ es, p ≤ e.start := by
  induction es generalizing p with
  | nil => nofun
  | cons e es ih =>
    obtain ⟨hp, hse, hrest⟩ := h
    refine List.forall_mem_cons.mpr ⟨hp, fun f hf => ?_⟩
    have := ih hrest f hf
    omega

/-- The edit `f` is `e` without what `e` writes back as it was at both ends. -/
structure Narrows (t : List α) (e f : Edit α) : Prop where
  start : e.start ≤ f.start
  stop : f.stop ≤ e.stop
  order : f.start ≤ f.stop
  new : e.new = (t.drop e.start).take (f.start - e.start) ++ f.new ++
    (t.drop f.stop).take (e.stop - f.stop)

/-- Narrower edits do the same. -/
theorem splice_narrow {t : List α} {p : Nat} {es fs : List (Edit α)} (h : Ordered t p es)
    (hn : List.Forall₂ (Narrows t) es fs) : Ordered t p fs ∧ splice t p es = splice t p fs := by
  induction hn generalizing p with
  | nil => exact ⟨h, rfl⟩
  | @cons e f es fs hef hn ih =>
    obtain ⟨hp, hse, hrest⟩ := h
    obtain ⟨hord, heq⟩ := ih hrest
    have hlen := hrest.le_length
    have hadvance := splice_advance hef.stop hlen hord.start_le
    have hfront : (t.take f.start).drop p =
        (t.take e.start).drop p ++ (t.drop e.start).take (f.start - e.start) := by
      have hcut := List.take_append_drop e.start (t.take f.start)
      rw [List.take_take, Nat.min_eq_left hef.start, List.drop_take] at hcut
      rw [← hcut, List.drop_append_of_le_length (by rw [List.length_take]; omega)]
    refine ⟨⟨Nat.le_trans hp hef.start, hef.order, ?_⟩, ?_⟩
    · have hwiden : ∀ {q : Nat}, q ≤ e.stop → Ordered t e.stop fs → Ordered t q fs := by
        intro q hq hfs
        cases fs with
        | nil => exact Nat.le_trans hq hfs
        | cons g fs => exact ⟨Nat.le_trans hq hfs.1, hfs.2⟩
      exact hwiden hef.stop hord
    · rw [splice, splice, hfront, hadvance, hef.new, heq]
      simp only [List.append_assoc]

end Splice
