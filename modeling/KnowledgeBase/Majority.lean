import Mathlib

/-! A vote decided by the value cast most often. A value with more than half of the votes is the
only one that can win, whatever the order they were cast in. -/

namespace Majority

variable {α : Type*} [DecidableEq α] {votes : List α} {a b : α}

/-- The value cast most often, the first of these. -/
def winner (votes : List α) : Option α := votes.argmax (votes.count ·)

theorem count_add_count_le (h : a ≠ b) : votes.count a + votes.count b ≤ votes.length := by
  induction votes with
  | nil => simp
  | cons v votes ih =>
    by_cases ha : v = a
    · subst ha
      rw [List.count_cons_self, List.count_cons_of_ne h, List.length_cons]
      omega
    · rw [List.count_cons_of_ne ha, List.length_cons, List.count_cons]
      split <;> omega

theorem winner_of_majority (h : votes.length < 2 * votes.count a) : winner votes = some a := by
  cases hw : winner votes with
  | none =>
    have hnil : votes = [] := List.argmax_eq_none.mp hw
    simp [hnil] at h
  | some b =>
    have hmem : a ∈ votes := List.count_pos_iff.mp (by omega)
    have hle : votes.count a ≤ votes.count b := List.le_of_mem_argmax hmem hw
    by_cases hab : b = a
    · rw [hab]
    · have hsum : votes.count b + votes.count a ≤ votes.length := count_add_count_le hab
      omega

theorem winner_eq_some_iff_of_majority (h : votes.length < 2 * votes.count b) :
    winner votes = some a ↔ a = b := by
  rw [winner_of_majority h, Option.some.injEq]
  exact eq_comm

end Majority
