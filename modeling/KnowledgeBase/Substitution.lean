import KnowledgeBase.Excision
import KnowledgeBase.Splice

/-! Writing meanings in the place of words. A word begins with an opening symbol, ends with a closing
one and holds neither in between, so no two overlap: where words were written over spans of a text that
held none of them, writing back what each stands for gives the text. -/

namespace Substitution

open Excision Splice

variable {α : Type*}

variable {o c : α} {d d' v x y t : List α} {table : List (List α × List α)}

theorem word_prefix_unique (hd : Bare o c d) (hd' : Bare o c d') (h : word o c d <+: t)
    (h' : word o c d' <+: t) : d = d' := by
  obtain ⟨y, rfl⟩ := h
  have hp : d' ++ [c] <+: d ++ c :: y := by
    simpa [word] using h'
  rcases prefix_close hd'.2 hp with hin | he
  · exact absurd (hin.subset (by simp)) hd.2
  · exact he

/-- A word that is in a text is not begun by a symbol other than the opening one. -/
theorem infix_of_not_mem (hv : o ∉ v) (h : word o c d <:+: v ++ y) : word o c d <:+: y := by
  induction v with
  | nil => exact h
  | cons a v ih =>
    rw [List.mem_cons, not_or] at hv
    rcases List.infix_cons_iff.mp h with hp | hin
    · exact absurd (List.cons_prefix_cons.mp hp).1 hv.1
    · exact ih hv.2 hin

/-- A word in a text with another word in it is that word or on one side of it. -/
theorem infix_around (hoc : o ≠ c) (hd : Bare o c d) (hd' : Bare o c d')
    (h : word o c d <:+: x ++ word o c d' ++ y) :
    word o c d <:+: x ∨ d = d' ∨ word o c d <:+: y := by
  induction x with
  | nil =>
    have hlast : word o c d <:+: o :: (d' ++ [c] ++ y) := by simpa [word] using h
    rcases List.infix_cons_iff.mp hlast with hp | hin
    · refine .inr (.inl (word_prefix_unique hd hd' hp ?_))
      exact ⟨y, by simp [word]⟩
    · have hno : o ∉ d' ++ [c] := by simp [hd'.1, hoc]
      exact .inr (.inr (infix_of_not_mem hno hin))
  | cons a x ih =>
    rcases List.infix_cons_iff.mp (by simpa using h) with hp | hin
    · have hpre : word o c d <+: (a :: x) ++ o :: (d' ++ [c] ++ y) := by simpa [word] using hp
      exact .inl (prefix_open hoc hd (List.cons_ne_nil a x) hpre).isInfix
    · rcases ih (by simpa using hin) with hx | hrest
      · exact .inl (List.infix_cons hx)
      · exact .inr hrest

/-- The only words in a text that are not of it are those that were written in. -/
theorem infix_splice_word {p : Nat} {es : List (Edit α)} (hoc : o ≠ c) (hd : Bare o c d)
    (hes : ∀ e ∈ es, ∃ d', Bare o c d' ∧ e.new = word o c d') (ht : ¬ word o c d <:+: t)
    (h : word o c d <:+: splice t p es) : ∃ e ∈ es, e.new = word o c d := by
  induction es generalizing p with
  | nil => exact absurd (h.trans (List.drop_suffix p t).isInfix) ht
  | cons e es ih =>
    obtain ⟨⟨d', hd', hnew⟩, hrest⟩ := List.forall_mem_cons.mp hes
    rw [splice, hnew] at h
    rcases infix_around hoc hd hd' h with hx | rfl | hy
    · have hseg : (t.take e.start).drop p <:+: t :=
        (List.drop_suffix p _).isInfix.trans (List.take_prefix _ t).isInfix
      exact absurd (hx.trans hseg) ht
    · exact ⟨e, List.mem_cons_self, hnew⟩
    · obtain ⟨e', he', hnew'⟩ := ih hrest hy
      exact ⟨e', List.mem_cons_of_mem e he', hnew'⟩

/-- The words are bare, and each stands for one thing. -/
structure Readable (o c : α) (table : List (List α × List α)) : Prop where
  words : ∀ entry ∈ table, ∃ d, Bare o c d ∧ entry.1 = word o c d
  unique : ∀ e ∈ table, ∀ e' ∈ table, e.1 = e'.1 → e.2 = e'.2

/-- No word of the table is in the text. -/
def Free (table : List (List α × List α)) (t : List α) : Prop := ∀ entry ∈ table, ¬ entry.1 <:+: t

theorem Free.of_infix (h : Free table t) (hv : v <:+: t) : Free table v :=
  fun entry he hin => h entry he (hin.trans hv)

section Writing

variable [DecidableEq α]

/-- From left to right every word of the table becomes what stands beside it. The number is how many
symbols of the last one are still to be passed over. -/
def substitute (table : List (List α × List α)) : Nat → List α → List α
  | _, [] => []
  | skip + 1, _ :: t => substitute table skip t
  | 0, a :: t =>
    match table.find? (fun entry => entry.1.isPrefixOf (a :: t)) with
    | some entry => entry.2 ++ substitute table (entry.1.length - 1) t
    | none => a :: substitute table 0 t

theorem substitute_drop (k : Nat) (t : List α) :
    substitute table k t = substitute table 0 (t.drop k) := by
  induction t generalizing k with
  | nil => cases k <;> simp [substitute]
  | cons a t ih =>
    cases k with
    | zero => simp
    | succ k => simpa [substitute] using ih k

theorem substitute_free (h : Free table t) : substitute table 0 t = t := by
  induction t with
  | nil => rfl
  | cons a t ih =>
    have hnone : table.find? (fun entry => entry.1.isPrefixOf (a :: t)) = none := by
      rw [List.find?_eq_none]
      intro entry he hp
      exact h entry he (List.isPrefixOf_iff_prefix.mp hp).isInfix
    rw [substitute, hnone, ih (h.of_infix (List.suffix_cons a t).isInfix)]

/-- Up to an opening symbol a text without words stays. -/
theorem substitute_append_open (hoc : o ≠ c) (h : Readable o c table) (hx : Free table x) :
    substitute table 0 (x ++ o :: y) = x ++ substitute table 0 (o :: y) := by
  induction x with
  | nil => rfl
  | cons a x ih =>
    have hnone : table.find? (fun entry => entry.1.isPrefixOf (a :: (x ++ o :: y))) = none := by
      rw [List.find?_eq_none]
      intro entry he hp
      obtain ⟨d, hd, hw⟩ := h.words entry he
      have hpre : word o c d <+: (a :: x) ++ o :: y := hw ▸ List.isPrefixOf_iff_prefix.mp hp
      exact hx entry he (hw ▸ (prefix_open hoc hd (List.cons_ne_nil a x) hpre).isInfix)
    rw [List.cons_append, substitute, hnone, ih (hx.of_infix (List.suffix_cons a x).isInfix)]
    rfl

theorem substitute_word (h : Readable o c table) (hd : Bare o c d) (he : (word o c d, v) ∈ table) :
    substitute table 0 (word o c d ++ y) = v ++ substitute table 0 y := by
  have hcons : word o c d ++ y = o :: (d ++ c :: y) := by simp [word]
  obtain ⟨found, hfound⟩ : ∃ found,
      table.find? (fun entry => entry.1.isPrefixOf (o :: (d ++ c :: y))) = some found := by
    rw [← Option.isSome_iff_exists, List.find?_isSome]
    exact ⟨_, he, by rw [List.isPrefixOf_iff_prefix, ← hcons]; exact List.prefix_append _ _⟩
  have hmem := List.mem_of_find?_eq_some hfound
  obtain ⟨d', hd', hw⟩ := h.words found hmem
  have hp := List.find?_some hfound
  rw [List.isPrefixOf_iff_prefix, hw, ← hcons] at hp
  obtain rfl := word_prefix_unique hd' hd hp (List.prefix_append _ _)
  have hv : found.2 = v := h.unique found hmem _ he hw
  rw [hcons, substitute, hfound]
  dsimp only
  rw [hv, hw]
  have hlen : (word o c d').length - 1 = (d' ++ [c]).length := by simp [word]
  have hrest : d' ++ c :: y = (d' ++ [c]) ++ y := by simp
  rw [hlen, hrest, substitute_drop, List.drop_left]

/-- The edits write words of the table over what these stand for. -/
theorem substitute_splice {p : Nat} {es : List (Edit α)} (hoc : o ≠ c) (h : Readable o c table)
    (ht : Free table t) (hord : Ordered t p es)
    (hes : ∀ e ∈ es, (e.new, (t.take e.stop).drop e.start) ∈ table) :
    substitute table 0 (splice t p es) = t.drop p := by
  induction es generalizing p with
  | nil => exact substitute_free (ht.of_infix (List.drop_suffix p t).isInfix)
  | cons e es ih =>
    obtain ⟨hp, hse, hrest⟩ := hord
    obtain ⟨hmem, hes⟩ := List.forall_mem_cons.mp hes
    obtain ⟨d, hd, hw⟩ : ∃ d, Bare o c d ∧ e.new = word o c d := h.words _ hmem
    have hseg : Free table ((t.take e.start).drop p) :=
      ht.of_infix ((List.drop_suffix p _).isInfix.trans (List.take_prefix _ t).isInfix)
    have hopen : splice t p (e :: es) =
        (t.take e.start).drop p ++ o :: (d ++ c :: splice t e.stop es) := by
      rw [splice, hw]
      simp [word]
    have hback : o :: (d ++ c :: splice t e.stop es) = word o c d ++ splice t e.stop es := by
      simp [word]
    rw [hopen, substitute_append_open hoc h hseg, hback, substitute_word h hd (hw ▸ hmem),
      ih hrest hes]
    have hcut : ∀ {a b : Nat}, a ≤ b → b ≤ t.length → (t.take b).drop a ++ t.drop b = t.drop a := by
      intro a b hab hb
      have hdrop := congrArg (List.drop a) (List.take_append_drop b t)
      rwa [List.drop_append_of_le_length (by rw [List.length_take]; omega)] at hdrop
    have hlen := hrest.le_length
    rw [hcut hse hlen, hcut hp (by omega)]

end Writing

end Substitution
