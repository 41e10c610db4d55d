import Mathlib.Logic.Basic

/-! Runs of a system given by a partial step function on labelled actions, and
the induction that carries an invariant along a run. The runs are those whose
every step meets a side condition on the state it starts from. -/

namespace Transition

variable {σ α : Type*}

def Runs (step : σ → α → Option σ) (ok : σ → α → Prop) : σ → List α → σ → Prop
  | s, [], t => s = t
  | s, a :: as, t => ok s a ∧ ∃ u, step s a = some u ∧ Runs step ok u as t

variable {step : σ → α → Option σ} {ok : σ → α → Prop}

theorem Runs.append {s u t : σ} {as bs : List α}
    (h : Runs step ok s as u) (h' : Runs step ok u bs t) : Runs step ok s (as ++ bs) t := by
  induction as generalizing s with
  | nil => subst h; exact h'
  | cons a as ih =>
    obtain ⟨ha, v, hv, hr⟩ := h
    exact ⟨ha, v, hv, ih hr⟩

theorem Runs.single {s t : σ} {a : α} (ha : ok s a) (h : step s a = some t) :
    Runs step ok s [a] t := ⟨ha, t, h, rfl⟩

theorem Runs.split {s t : σ} {as bs : List α} (h : Runs step ok s (as ++ bs) t) :
    ∃ u, Runs step ok s as u ∧ Runs step ok u bs t := by
  induction as generalizing s with
  | nil => exact ⟨s, rfl, h⟩
  | cons a as ih =>
    obtain ⟨ha, v, hv, hr⟩ := h
    obtain ⟨u, hu, hu'⟩ := ih hr
    exact ⟨u, ⟨ha, v, hv, hu⟩, hu'⟩

/-- The actions of a run determine where it ends, whatever it is subject to. -/
theorem Runs.det {ok' : σ → α → Prop} {s t u : σ} {as : List α}
    (h : Runs step ok s as t) (h' : Runs step ok' s as u) : t = u := by
  induction as generalizing s with
  | nil => exact h.symm.trans h'
  | cons a as ih =>
    obtain ⟨-, v, hv, hr⟩ := h
    obtain ⟨-, v', hv', hr'⟩ := h'
    obtain rfl := Option.some.inj (hv.symm.trans hv')
    exact ih hr hr'

/-- What one step preserves, under the side condition, a run preserves. -/
theorem Runs.invariant {I : σ → Prop}
    (hstep : ∀ s a t, I s → ok s a → step s a = some t → I t)
    {s t : σ} {as : List α} (h : Runs step ok s as t) (hs : I s) : I t := by
  induction as generalizing s with
  | nil => exact h ▸ hs
  | cons a as ih =>
    obtain ⟨ha, u, hu, hr⟩ := h
    exact ih hr (hstep s a u hs ha hu)

/-- The same for a property that only some actions can break, along a run in
which none of them occurs. -/
theorem Runs.stable {I : σ → Prop} (breaks : α → Prop)
    (hstep : ∀ s a t, I s → ¬ breaks a → step s a = some t → I t)
    {s t : σ} {as : List α} (h : Runs step ok s as t) (hs : I s)
    (hno : ∀ a ∈ as, ¬ breaks a) : I t := by
  induction as generalizing s with
  | nil => exact h ▸ hs
  | cons a as ih =>
    obtain ⟨-, u, hu, hr⟩ := h
    exact ih hr (hstep s a u hs (hno a (by simp)) hu) (fun b hb => hno b (by simp [hb]))

/-- Where a step keeps a property exactly if it meets the condition, the property holds all
along a run exactly if all its steps meet it. -/
theorem Runs.throughout_iff {I : σ → Prop}
    (hkeep : ∀ s a t, I s → ok s a → step s a = some t → I t)
    (hbreak : ∀ s a t, I s → ¬ ok s a → step s a = some t → ¬ I t) {s t : σ} {as : List α}
    (hs : I s) (h : Runs step (fun _ _ => True) s as t) :
    (∀ pre u, pre <+: as → Runs step (fun _ _ => True) s pre u → I u) ↔ Runs step ok s as t := by
  constructor
  · intro hall
    induction as generalizing s with
    | nil => exact h
    | cons a as ih =>
      obtain ⟨-, u, hu, hr⟩ := h
      have hI : I u := hall [a] u (by simp) (Runs.single trivial hu)
      have hok : ok s a := Classical.byContradiction fun hno => hbreak s a u hs hno hu hI
      refine ⟨hok, u, hu, ih hI hr fun pre v hpre hv => ?_⟩
      exact hall (a :: pre) v (by simpa using hpre) ⟨trivial, u, hu, hv⟩
  · rintro hok pre u ⟨post, rfl⟩ hu
    obtain ⟨v, hv, -⟩ := hok.split
    obtain rfl := hv.det hu
    exact hv.invariant hkeep hs

def exec (step : σ → α → Option σ) : σ → List α → Option σ
  | s, [] => some s
  | s, a :: as => (step s a).bind (exec step · as)

/-- The steps that pass a test which the side condition can be read off from. -/
def guarded (step : σ → α → Option σ) (test : σ → α → Bool) (s : σ) (a : α) : Option σ :=
  if test s a then step s a else none

/-- The state after the steps, as far as they can be taken. -/
def finalState (step : σ → α → Option σ) : σ → List α → σ
  | s, [] => s
  | s, a :: as =>
    match step s a with
    | none => s
    | some u => finalState step u as

theorem step_finalState {s : σ} {as : List α} {a : α}
    (h : (exec step s (as ++ [a])).isSome = true) :
    step (finalState step s as) a = some (finalState step s (as ++ [a])) := by
  induction as generalizing s with
  | nil =>
    obtain ⟨t, ht⟩ := Option.isSome_iff_exists.mp h
    obtain ⟨u, hu, -⟩ := Option.bind_eq_some_iff.mp ht
    simp [finalState, hu]
  | cons b as ih =>
    obtain ⟨t, ht⟩ := Option.isSome_iff_exists.mp h
    obtain ⟨u, hu, hr⟩ := Option.bind_eq_some_iff.mp ht
    have hr' : exec step u (as ++ [a]) = some t := hr
    have hrest := @ih u (by rw [hr']; rfl)
    simpa [finalState, hu] using hrest

/-- A run is found by executing it, with a test on the steps and a fact on the actions. -/
theorem runs_of_exec_on (test : σ → α → Bool) (good : α → Prop)
    (htest : ∀ s a, good a → test s a = true → ok s a) {s : σ} {as : List α}
    (hgood : ∀ a ∈ as, good a) (h : (exec (guarded step test) s as).isSome = true) :
    Runs step ok s as (finalState step s as) := by
  induction as generalizing s with
  | nil => rfl
  | cons a as ih =>
    obtain ⟨t, ht⟩ := Option.isSome_iff_exists.mp h
    obtain ⟨u, hu, hr⟩ := Option.bind_eq_some_iff.mp ht
    unfold guarded at hu
    split at hu
    · rename_i ha
      have hfinal : finalState step s (a :: as) = finalState step u as := by
        rw [finalState, hu]
      have hrest : Runs step ok u as (finalState step u as) :=
        ih (fun b hb => hgood b (by simp [hb])) (by rw [hr]; rfl)
      exact ⟨htest s a (hgood a (by simp)) ha, u, hu, hfinal ▸ hrest⟩
    · cases hu

theorem runs_of_exec (test : σ → α → Bool) (htest : ∀ s a, test s a = true → ok s a)
    {s : σ} {as : List α} (h : (exec (guarded step test) s as).isSome = true) :
    Runs step ok s as (finalState step s as) :=
  runs_of_exec_on test (fun _ => True) (fun s a _ => htest s a) (fun _ _ => trivial) h

/-- A run under no condition. -/
theorem runs_of_exec_free {s : σ} {as : List α} (h : (exec step s as).isSome = true) :
    Runs step (fun _ _ => True) s as (finalState step s as) :=
  runs_of_exec (fun _ _ => true) (fun _ _ _ => trivial) h

end Transition
