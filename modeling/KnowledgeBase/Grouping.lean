import Mathlib.Data.List.Basic

/-! Cutting a list into runs of neighbours, and changing the last element that passes a test. Neither
loses an element or takes one twice. -/

namespace Grouping

variable {α : Type*}

/-- An element joins the last group, or begins one. -/
def add (joins : List α → α → Bool) (groups : List (List α)) (a : α) : List (List α) :=
  match groups.getLast? with
  | none => [[a]]
  | some last => if joins last a then groups.dropLast ++ [last ++ [a]] else groups ++ [[a]]

def group (joins : List α → α → Bool) (l : List α) : List (List α) := l.foldl (add joins) []

section Groups

variable {joins : List α → α → Bool} {groups : List (List α)} {a : α}

variable (joins groups a) in
theorem add_eq : add joins groups a = groups ++ [[a]] ∨ ∃ front last, groups = front ++ [last] ∧
    add joins groups a = front ++ [last ++ [a]] := by
  unfold add
  cases hlast : groups.getLast? with
  | none =>
    rw [List.getLast?_eq_none_iff] at hlast
    exact .inl (by rw [hlast, List.nil_append])
  | some last =>
    obtain ⟨front, rfl⟩ := List.getLast?_eq_some_iff.mp hlast
    by_cases hjoins : joins last a = true
    · exact .inr ⟨front, last, rfl, by simp [hjoins]⟩
    · exact .inl (by simp [hjoins])

theorem flatten_add : (add joins groups a).flatten = groups.flatten ++ [a] := by
  rcases add_eq joins groups a with h | ⟨front, last, rfl, h⟩ <;>
    simp [h]

theorem ne_nil_add (h : ∀ g ∈ groups, g ≠ []) : ∀ g ∈ add joins groups a, g ≠ [] := by
  intro g hg
  rcases add_eq joins groups a with heq | ⟨front, last, rfl, heq⟩
  · rw [heq] at hg
    rcases List.mem_append.mp hg with hg | hg
    · exact h g hg
    · simp [List.mem_singleton.mp hg]
  · rw [heq] at hg
    rcases List.mem_append.mp hg with hg | hg
    · exact h g (by simp [hg])
    · simp [List.mem_singleton.mp hg]

theorem foldl_add (l : List α) (h : ∀ g ∈ groups, g ≠ []) :
    (l.foldl (add joins) groups).flatten = groups.flatten ++ l ∧
      ∀ g ∈ l.foldl (add joins) groups, g ≠ [] := by
  induction l generalizing groups with
  | nil => exact ⟨by simp, h⟩
  | cons a l ih =>
    obtain ⟨hflat, hne⟩ := ih (ne_nil_add (a := a) h)
    rw [flatten_add] at hflat
    exact ⟨by simpa using hflat, hne⟩

theorem group_spec (joins : List α → α → Bool) (l : List α) :
    (group joins l).flatten = l ∧ ∀ g ∈ group joins l, g ≠ [] :=
  foldl_add l (List.forall_mem_nil _)

theorem flatten_group (joins : List α → α → Bool) (l : List α) : (group joins l).flatten = l :=
  (group_spec joins l).1

theorem group_ne_nil {g : List α} {l : List α} (hg : g ∈ group joins l) : g ≠ [] :=
  (group_spec joins l).2 g hg

end Groups

/-- The last element that passes is changed; `none` where none does. -/
def updateLast (p : α → Bool) (f : α → α) (l : List α) : Option (List α) :=
  match l with
  | [] => none
  | a :: l =>
    match updateLast p f l with
    | some l' => some (a :: l')
    | none => if p a then some (f a :: l) else none

theorem updateLast_eq_some {p : α → Bool} {f : α → α} {l l' : List α}
    (h : updateLast p f l = some l') : ∃ x a y, l = x ++ a :: y ∧ l' = x ++ f a :: y := by
  induction l generalizing l' with
  | nil => cases h
  | cons b l ih =>
    rw [updateLast] at h
    cases hrest : updateLast p f l with
    | some rest =>
      obtain ⟨x, a, y, rfl, rfl⟩ := ih hrest
      rw [hrest, Option.some.injEq] at h
      exact ⟨b :: x, a, y, rfl, h.symm⟩
    | none =>
      simp only [hrest, Option.ite_none_right_eq_some, Option.some.injEq] at h
      exact ⟨[], b, l, rfl, h.2.symm⟩

end Grouping
