import Mathlib.Data.List.Basic

/-! An allowance that is used up by some of the items it is spent on: an item is taken while any of
it is left, and only one that yields costs one. The taking is bounded by the allowance where the
items it begins with all yield, or are no more than it to begin with. -/

namespace Allowance

variable {α : Type*} (yields : α → Prop) [DecidablePred yields]

/-- The items taken on an allowance. -/
def taken : Nat → List α → List α
  | 0, _ => []
  | _ + 1, [] => []
  | n + 1, a :: as => a :: taken (if yields a then n else n + 1) as

variable {yields}

@[simp] theorem taken_zero (as : List α) : taken yields 0 as = [] := by cases as <;> rfl

@[simp] theorem taken_nil (n : Nat) : taken yields n [] = [] := by cases n <;> rfl

theorem taken_cons (n : Nat) (a : α) (as : List α) :
    taken yields (n + 1) (a :: as) = a :: taken yields (if yields a then n else n + 1) as := rfl

theorem taken_sublist (n : Nat) (as : List α) : (taken yields n as).Sublist as := by
  induction as generalizing n with
  | nil => simp
  | cons a as ih =>
    cases n with
    | zero => simp
    | succ n => exact (ih _).cons₂ a

/-- As many are taken as the allowance says, or all there are. -/
theorem le_length_taken (n : Nat) (as : List α) :
    min n as.length ≤ (taken yields n as).length := by
  induction as generalizing n with
  | nil => simp
  | cons a as ih =>
    cases n with
    | zero => simp
    | succ n =>
      rw [taken_cons]
      simp only [List.length_cons]
      split
      · have := ih n
        omega
      · have := ih (n + 1)
        omega

/-- No more are taken than the allowance says exactly where there are no more, or where each of the
first it could be spent on yields. -/
theorem length_taken_le_iff (n : Nat) (as : List α) :
    (taken yields n as).length ≤ n ↔ as.length ≤ n ∨ ∀ a ∈ as.take n, yields a := by
  induction as generalizing n with
  | nil => simp
  | cons a as ih =>
    cases n with
    | zero => simp
    | succ n =>
      rw [taken_cons, List.take_succ_cons, List.forall_mem_cons]
      simp only [List.length_cons]
      by_cases ha : yields a
      · rw [if_pos ha, Nat.add_le_add_iff_right, ih n, Nat.add_le_add_iff_right]
        simp [ha]
      · rw [if_neg ha]
        have hle := @le_length_taken _ yields _ (n + 1) as
        have hsub := (@taken_sublist _ yields _ (n + 1) as).length_le
        simp only [ha, false_and, or_false]
        omega

end Allowance
