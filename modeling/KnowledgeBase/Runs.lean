import Mathlib

/-! The maximal runs of marked values in a list. Between two runs it does not matter how much stands
there, as long as something does, so a rewriting of what is not marked keeps the runs. Taking out
unmarked values can only join runs. -/

namespace Runs

variable {α β : Type*} {cur cur' : List β} {x y z : List (Option β)}

def close (cur : List β) : List (List β) := if cur.isEmpty then [] else [cur]

/-- The runs from inside one that has read `cur` so far. -/
def runsFrom (cur : List β) : List (Option β) → List (List β)
  | [] => close cur
  | none :: l => close cur ++ runsFrom [] l
  | some b :: l => runsFrom (cur ++ [b]) l

def runs (l : List (Option β)) : List (List β) := runsFrom [] l

theorem close_of_ne_nil (h : cur ≠ []) : close cur = [cur] := by
  cases cur with
  | nil => exact absurd rfl h
  | cons b cur => rfl

theorem runsFrom_none (cur : List β) (x y : List (Option β)) :
    runsFrom cur (x ++ none :: y) = runsFrom cur x ++ runs y := by
  induction x generalizing cur with
  | nil => rfl
  | cons v x ih =>
    cases v with
    | none => simp only [List.cons_append, runsFrom, ih, List.append_assoc]
    | some b => simp only [List.cons_append, runsFrom, ih]

theorem flatten_runsFrom (cur : List β) (l : List (Option β)) :
    (runsFrom cur l).flatten = cur ++ l.filterMap id := by
  have hclose : ∀ cur : List β, (close cur).flatten = cur := by
    intro cur
    cases cur <;> simp [close]
  induction l generalizing cur with
  | nil => simp [runsFrom, hclose]
  | cons v l ih =>
    cases v with
    | none => simp [runsFrom, hclose, ih]
    | some b => simp [runsFrom, ih]

/-- What was read of the first run does not change how many there are. -/
theorem length_runsFrom (hcur : cur ≠ []) (hcur' : cur' ≠ []) (l : List (Option β)) :
    (runsFrom cur l).length = (runsFrom cur' l).length := by
  induction l generalizing cur cur' with
  | nil => simp [runsFrom, close_of_ne_nil hcur, close_of_ne_nil hcur']
  | cons v l ih =>
    cases v with
    | none => simp [runsFrom, close_of_ne_nil hcur, close_of_ne_nil hcur']
    | some b => exact ih (by simp) (by simp)

/-- The lists have the same runs, whatever was read before them. -/
def Same (x y : List (Option β)) : Prop := ∀ cur, runsFrom cur x = runsFrom cur y

theorem Same.refl (x : List (Option β)) : Same x x := fun _ => rfl

theorem Same.symm (h : Same x y) : Same y x := fun cur => (h cur).symm

theorem Same.trans (h : Same x y) (h' : Same y z) : Same x z := fun cur => (h cur).trans (h' cur)

theorem Same.runs (h : Same x y) : runs x = runs y := h []

theorem Same.append_left (h : Same x y) (p : List (Option β)) : Same (p ++ x) (p ++ y) := by
  induction p with
  | nil => exact h
  | cons v p ih =>
    intro cur
    cases v with
    | none => simp only [List.cons_append, runsFrom, ih []]
    | some b => exact ih (cur ++ [b])

theorem runsFrom_block (hne : x ≠ []) (hx : ∀ v ∈ x, v = none) (z : List (Option β)) :
    runsFrom cur (x ++ z) = close cur ++ runsFrom [] z := by
  induction x generalizing cur with
  | nil => exact absurd rfl hne
  | cons v x ih =>
    obtain ⟨hv, hrest⟩ := List.forall_mem_cons.mp hx
    rw [hv, List.cons_append, runsFrom]
    by_cases hnil : x = []
    · rw [hnil, List.nil_append]
    · rw [ih hnil hrest]
      simp [close]

/-- How much stands between two runs does not matter. -/
theorem same_block (hx : x ≠ []) (hxn : ∀ v ∈ x, v = none) (hy : y ≠ []) (hyn : ∀ v ∈ y, v = none)
    (z : List (Option β)) : Same (x ++ z) (y ++ z) := by
  intro cur
  rw [runsFrom_block hx hxn, runsFrom_block hy hyn]

/-- Nothing more is needed where a run ends anyway. -/
theorem same_block_nil (hxn : ∀ v ∈ x, v = none) (hz : z = [] ∨ ∃ l, z = none :: l) :
    Same (x ++ z) z := by
  by_cases hx : x = []
  · rw [hx]
    exact Same.refl z
  · intro cur
    rw [runsFrom_block hx hxn]
    rcases hz with rfl | ⟨l, rfl⟩ <;> simp [runsFrom, close]

section Deletion

variable (mark : α → Option β) (deleted : α → Bool)

/-- Where a list stands: between runs, in a run, or after one with only deleted values since. -/
inductive Last where
  | outside
  | inside
  | gap

def joinsFrom : Last → List α → Bool
  | _, [] => false
  | last, a :: l =>
    if (mark a).isSome then
      match last with
      | .gap => true
      | _ => joinsFrom .inside l
    else if deleted a then
      match last with
      | .outside => joinsFrom .outside l
      | _ => joinsFrom .gap l
    else joinsFrom .outside l

/-- Two marked values have only deleted ones between them, and at least one. -/
def joins (l : List α) : Bool := joinsFrom mark deleted .outside l

/-- The runs are the same, or fewer where some were joined. -/
def Joined (j : Bool) (a b : List (List β)) : Prop := if j then a.length < b.length else a = b

variable {mark deleted} {j : Bool} {a b c : List (List β)}

theorem Joined.append_left (h : Joined j a b) (c : List (List β)) : Joined j (c ++ a) (c ++ b) := by
  cases j with
  | false => exact congrArg (c ++ ·) h
  | true =>
    have h : a.length < b.length := h
    simpa [Joined] using h

theorem Joined.length_le (h : Joined j a b) : a.length ≤ b.length := by
  cases j with
  | false => exact le_of_eq (congrArg List.length h)
  | true => exact le_of_lt h

theorem joined_from (hmark : ∀ v, deleted v = true → mark v = none) (l : List α) :
    Joined (joinsFrom mark deleted .outside l)
      (runs ((l.filter (!deleted ·)).map mark)) (runs (l.map mark)) ∧
    ∀ cur : List β, cur ≠ [] →
      Joined (joinsFrom mark deleted .inside l)
        (runsFrom cur ((l.filter (!deleted ·)).map mark)) (runsFrom cur (l.map mark)) ∧
      Joined (joinsFrom mark deleted .gap l)
        (runsFrom cur ((l.filter (!deleted ·)).map mark)) (close cur ++ runs (l.map mark)) := by
  induction l with
  | nil => exact ⟨rfl, fun cur _ => ⟨rfl, by simp [Joined, joinsFrom, runs, runsFrom, close]⟩⟩
  | cons v l ih =>
    obtain ⟨hout, hin⟩ := ih
    have hempty : ∀ t : List (Option β), runs (none :: t) = runs t := fun t => rfl
    cases hv : mark v with
    | some b =>
      have hkeep : deleted v = false := by
        by_contra h
        rw [hmark v (by simpa using h)] at hv
        cases hv
      have hb := (hin [b] (by simp)).1
      simp only [joinsFrom, hv, Option.isSome_some, if_true, List.filter_cons, hkeep, Bool.not_false,
        List.map_cons]
      refine ⟨hb, fun cur hcur => ⟨(hin (cur ++ [b]) (by simp)).1, ?_⟩⟩
      -- the run read so far and the one that starts here become one
      have hlen : (runsFrom (cur ++ [b]) ((l.filter (!deleted ·)).map mark)).length ≤
          (runsFrom [b] (l.map mark)).length :=
        (length_runsFrom (by simp) (by simp) _).trans_le hb.length_le
      simpa [Joined, close_of_ne_nil hcur, runs, runsFrom, Nat.lt_succ_iff] using hlen
    | none =>
      by_cases hdel : deleted v = true
      · simp only [joinsFrom, hv, Option.isSome_none, Bool.false_eq_true, if_false, hdel, if_true,
          List.filter_cons, Bool.not_true, List.map_cons, hempty]
        exact ⟨hout, fun cur hcur => ⟨(hin cur hcur).2, (hin cur hcur).2⟩⟩
      · simp only [joinsFrom, hv, Option.isSome_none, Bool.false_eq_true, if_false, hdel,
          List.filter_cons, Bool.not_false, if_true, List.map_cons, hempty]
        exact ⟨hout, fun cur _ => ⟨hout.append_left _, hout.append_left _⟩⟩

/-- Taking out what is deleted keeps the runs exactly where it joins none. -/
theorem runs_filter (hmark : ∀ v, deleted v = true → mark v = none) (l : List α) :
    Joined (joins mark deleted l) (runs ((l.filter (!deleted ·)).map mark)) (runs (l.map mark)) :=
  (joined_from hmark l).1

end Deletion

end Runs
