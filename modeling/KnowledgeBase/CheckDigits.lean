import Mathlib

/-! Check digits. A state is carried over the digits of a number, one place after another. Where no
step loses the state or the digit it reads, two numbers that differ in one stretch end in one state
exactly if the stretches lead to one state. -/

namespace CheckDigits

variable {σ : Type*}

/-- The state after the digits, the first of which stands at place `i`. -/
def run (step : Nat → σ → Nat → σ) : Nat → σ → List Nat → σ
  | _, c, [] => c
  | i, c, d :: ds => run step (i + 1) (step i c d) ds

/-- A step keeps the states and can be taken back, from the digit or from the state before. -/
structure Reversible (step : Nat → σ → Nat → σ) (states : Set σ) : Prop where
  closed : ∀ i, ∀ c ∈ states, ∀ d < 10, step i c d ∈ states
  state : ∀ i, ∀ c ∈ states, ∀ c' ∈ states, ∀ d < 10, step i c d = step i c' d → c = c'
  digit : ∀ i, ∀ c ∈ states, ∀ d < 10, ∀ d' < 10, step i c d = step i c d' → d = d'

variable {step : Nat → σ → Nat → σ} {states : Set σ} {i : Nat} {c c' : σ} {ds es : List Nat}

theorem run_append (ds es : List Nat) :
    run step i c (ds ++ es) = run step (i + ds.length) (run step i c ds) es := by
  induction ds generalizing i c with
  | nil => simp [run]
  | cons d ds ih => simp [run, ih, Nat.add_assoc, Nat.add_comm 1]

theorem run_closed (h : Reversible step states) (hc : c ∈ states) (hds : ∀ d ∈ ds, d < 10) :
    run step i c ds ∈ states := by
  induction ds generalizing i c with
  | nil => exact hc
  | cons d ds ih =>
    simp only [List.mem_cons, forall_eq_or_imp] at hds
    exact ih (h.closed i c hc d hds.1) hds.2

/-- No digits bring two states together. -/
theorem run_inj (h : Reversible step states) (hc : c ∈ states) (hc' : c' ∈ states)
    (hds : ∀ d ∈ ds, d < 10) (he : run step i c ds = run step i c' ds) : c = c' := by
  induction ds generalizing i c c' with
  | nil => exact he
  | cons d ds ih =>
    simp only [List.mem_cons, forall_eq_or_imp] at hds
    have hstep := ih (h.closed i c hc d hds.1) (h.closed i c' hc' d hds.1) hds.2 he
    exact h.state i c hc c' hc' d hds.1 hstep

/-- A stretch of the number matters by where it leads to alone. -/
theorem run_stretch {pre post : List Nat} (h : Reversible step states) (hc : c ∈ states)
    (hpre : ∀ d ∈ pre, d < 10) (hds : ∀ d ∈ ds, d < 10) (hes : ∀ d ∈ es, d < 10)
    (hpost : ∀ d ∈ post, d < 10) (hlen : ds.length = es.length) :
    run step i c (pre ++ ds ++ post) = run step i c (pre ++ es ++ post) ↔
      run step (i + pre.length) (run step i c pre) ds =
        run step (i + pre.length) (run step i c pre) es := by
  have hmid := run_closed h hc hpre (i := i)
  simp only [run_append, List.length_append, hlen]
  constructor
  · exact run_inj h (run_closed h hmid hds) (run_closed h hmid hes) hpost
  · intro he
    rw [he]

/-- A wrong digit changes the state. -/
theorem run_slip {pre post : List Nat} {d d' : Nat} (h : Reversible step states)
    (hc : c ∈ states) (hpre : ∀ e ∈ pre, e < 10) (hd : d < 10) (hd' : d' < 10)
    (hpost : ∀ e ∈ post, e < 10) :
    run step i c (pre ++ d :: post) = run step i c (pre ++ d' :: post) ↔ d = d' := by
  have hone : ∀ e ∈ [d], e < 10 := by simpa using hd
  have hone' : ∀ e ∈ [d'], e < 10 := by simpa using hd'
  have hstretch := run_stretch h hc hpre hone hone' hpost rfl (i := i)
  simp only [List.append_assoc, List.singleton_append] at hstretch
  rw [hstretch]
  constructor
  · exact h.digit _ _ (run_closed h hc hpre) d hd d' hd'
  · rintro rfl
    rfl

/-- Of two neighbours that change places it is seen where the two together lead elsewhere. -/
theorem run_swap {pre post : List Nat} {d d' : Nat} (h : Reversible step states)
    (hc : c ∈ states) (hpre : ∀ e ∈ pre, e < 10) (hd : d < 10) (hd' : d' < 10)
    (hpost : ∀ e ∈ post, e < 10) :
    run step i c (pre ++ d :: d' :: post) = run step i c (pre ++ d' :: d :: post) ↔
      run step (i + pre.length) (run step i c pre) [d, d'] =
        run step (i + pre.length) (run step i c pre) [d', d] := by
  have hboth : ∀ e ∈ [d, d'], e < 10 := by simp [hd, hd']
  have hback : ∀ e ∈ [d', d], e < 10 := by simp [hd, hd']
  have hstretch := run_stretch h hc hpre hboth hback hpost rfl (i := i)
  simpa only [List.append_assoc, List.cons_append, List.nil_append] using hstretch

/-- With ten states there is one digit for each place that leads to a given one. -/
theorem exists_digit {step : Nat → Nat → Nat → Nat} {c t : Nat} {pre post : List Nat}
    (h : Reversible step {c | c < 10}) (hc : c < 10) (ht : t < 10) (hpre : ∀ e ∈ pre, e < 10)
    (hpost : ∀ e ∈ post, e < 10) :
    ∃! d, d < 10 ∧ run step i c (pre ++ d :: post) = t := by
  have hall : ∀ d : Fin 10, ∀ e ∈ pre ++ d.val :: post, e < 10 := by
    intro d e he
    rcases List.mem_append.mp he with he | he
    · exact hpre e he
    · rcases List.mem_cons.mp he with rfl | he
      · exact d.isLt
      · exact hpost e he
  let f : Fin 10 → Fin 10 := fun d =>
    ⟨run step i c (pre ++ d.val :: post), run_closed h hc (hall d)⟩
  have hinj : Function.Injective f := by
    intro d d' he
    exact Fin.ext ((run_slip h hc hpre d.isLt d'.isLt hpost).mp (Fin.mk.inj he))
  obtain ⟨d, hd⟩ := (Finite.injective_iff_surjective.mp hinj) ⟨t, ht⟩
  refine ⟨d.val, ⟨d.isLt, Fin.mk.inj hd⟩, ?_⟩
  rintro d' ⟨hlt, he⟩
  exact (run_slip h hc hpre hlt d.isLt hpost).mp (he.trans (Fin.mk.inj hd).symm)

end CheckDigits
