import Mathlib

/-! An alarm. Someone looks at the clock now and then, does the work at the first look at or after
the hour the alarm is set for, and sets it anew by what came of the work. -/

namespace Alarm

variable {T O : Type*}

/-- What was seen on the clock, when the work would begin, and what comes of it: nothing where it
cannot be done or is not noted. -/
structure Look (T O : Type*) where
  seen : T
  begun : T
  came : Option O

section

variable [LinearOrder T] (after : T → O → T)

/-- An alarm that was never set rings. -/
def Due (due : Option T) (t : T) : Prop := ∀ d ∈ due, d ≤ t

theorem due_some {d t : T} : Due (some d) t ↔ d ≤ t := by simp [Due]

instance (due : Option T) (t : T) : Decidable (Due due t) :=
  match due with
  | none => isTrue fun _ h => nomatch h
  | some d => decidable_of_iff (d ≤ t) due_some.symm

def attempt (due : Option T) (l : Look T O) : Option (T × O) :=
  if Due due l.seen then l.came.map fun o => (l.begun, o) else none

def set (due : Option T) (l : Look T O) : Option T :=
  match attempt due l with
  | none => due
  | some a => some (after a.1 a.2)

def run : Option T → List (Look T O) → Option T
  | due, [] => due
  | due, l :: ls => run (set after due l) ls

/-- The work that was done and noted. -/
def attempts : Option T → List (Look T O) → List (T × O)
  | _, [] => []
  | due, l :: ls => (attempt due l).toList ++ attempts (set after due l) ls

end

/-- The clock does not go back. -/
def Onward [LinearOrder T] : T → List (Look T O) → Prop
  | _, [] => True
  | t, l :: ls => t ≤ l.seen ∧ l.seen ≤ l.begun ∧ Onward l.begun ls

variable [LinearOrder T] {after : T → O → T} {due : Option T} {l : Look T O}
  {ls : List (Look T O)} {t : T} {a : T × O}

theorem attempt_eq_some : attempt due l = some a ↔
    Due due l.seen ∧ a.1 = l.begun ∧ l.came = some a.2 := by
  obtain ⟨t, o⟩ := a
  by_cases h : Due due l.seen
  · simp [attempt, h, eq_comm, and_comm]
  · simp [attempt, h]

theorem attempts_after (h : Onward t ls) (ha : a ∈ attempts after due ls) : t ≤ a.1 := by
  induction ls generalizing due t with
  | nil => simp [attempts] at ha
  | cons l ls ih =>
    obtain ⟨hseen, hbegun, hrest⟩ := h
    simp only [attempts, List.mem_append, Option.mem_toList] at ha
    rcases ha with ha | ha
    · obtain ⟨-, hat, -⟩ := attempt_eq_some.mp ha
      rw [hat]
      exact hseen.trans hbegun
    · exact hseen.trans (hbegun.trans (ih hrest ha))

/-- No work before the hour. -/
theorem attempts_due {d : T} (h : Onward t ls) (ha : a ∈ attempts after (some d) ls) : d ≤ a.1 := by
  induction ls generalizing t with
  | nil => simp [attempts] at ha
  | cons l ls ih =>
    obtain ⟨-, hbegun, hrest⟩ := h
    cases hl : attempt (some d) l with
    | none =>
      have hset : set after (some d) l = some d := by simp [set, hl]
      simp only [attempts, hl, hset, Option.toList_none, List.nil_append] at ha
      exact ih hrest ha
    | some b =>
      obtain ⟨hdue, hat, -⟩ := attempt_eq_some.mp hl
      have hd : d ≤ l.begun := (hdue d rfl).trans hbegun
      simp only [attempts, hl, Option.toList_some, List.mem_append, List.mem_singleton] at ha
      rcases ha with rfl | ha
      · rwa [hat]
      · exact hd.trans (attempts_after hrest ha)

/-- Whatever is done after a piece of work waits for the alarm that was set by it. -/
theorem attempts_spaced (h : Onward t ls) :
    (attempts after due ls).Pairwise fun a b => after a.1 a.2 ≤ b.1 := by
  induction ls generalizing due t with
  | nil => simp [attempts]
  | cons l ls ih =>
    obtain ⟨-, -, hrest⟩ := h
    cases hl : attempt due l with
    | none => simpa [attempts, hl] using ih hrest
    | some a =>
      have hset : set after due l = some (after a.1 a.2) := by simp [set, hl]
      simp only [attempts, hl, hset, Option.toList_some, List.singleton_append,
        List.pairwise_cons]
      refine ⟨fun b hb => ?_, ih hrest⟩
      exact attempts_due hrest hb

/-- No look leaves work undone that could have been done. -/
theorem set_later {o : O} (hafter : ∀ t o, t < after t o) (hbegun : l.seen ≤ l.begun)
    (hcame : l.came = some o) : ∃ d, set after due l = some d ∧ l.seen < d := by
  by_cases hdue : Due due l.seen
  · have hat : attempt due l = some (l.begun, o) := attempt_eq_some.mpr ⟨hdue, rfl, hcame⟩
    exact ⟨after l.begun o, by simp [set, hat], hbegun.trans_lt (hafter _ _)⟩
  · have hnone : attempt due l = none := by simp [attempt, hdue]
    cases due with
    | none => simp [Due] at hdue
    | some d => exact ⟨d, by simp [set, hnone], by simpa [Due] using hdue⟩

end Alarm
