import Mathlib.Logic.Basic

/-! Programs that act on a shared state one operation at a time. An operation
answers with a result or with an exception, and between two operations a program
may be crashed or overtaken, so what matters of it is the rest that is left. -/

inductive Program (Op : Type) (Resp : Op → Type) (ε : Type) (α : Type) where
  | ret (a : α)
  | raise (e : ε)
  | call (op : Op) (next : Except ε (Resp op) → Program Op Resp ε α)

namespace Program

variable {Op : Type} {Resp : Op → Type} {ε α β σ χ π : Type}

def bind (p : Program Op Resp ε α) (k : α → Program Op Resp ε β) : Program Op Resp ε β :=
  match p with
  | ret a => k a
  | raise e => raise e
  | call op next => call op (fun r => (next r).bind k)

instance : Monad (Program Op Resp ε) where
  pure := ret
  bind := bind

/-- An answer is the result of the operation, or an exception that propagates. -/
def ofExcept : Except ε α → Program Op Resp ε α
  | .ok a => ret a
  | .error e => raise e

def perform (op : Op) : Program Op Resp ε (Resp op) := call op ofExcept

/-- `try`: an exception becomes a value. -/
def attempt (p : Program Op Resp ε α) : Program Op Resp ε (Except ε α) :=
  match p with
  | ret a => ret (.ok a)
  | raise e => ret (.error e)
  | call op next => call op (fun r => (next r).attempt)

/-- How the operations act on the state: with which answers, to which states. -/
abbrev Acts (Op : Type) (Resp : Op → Type) (ε σ : Type) : Type :=
  (op : Op) → σ → Except ε (Resp op) → σ → Prop

/-- The program runs to its end with nothing in between. -/
inductive Ends (act : Acts Op Resp ε σ) :
    Program Op Resp ε α → σ → Except ε α → σ → Prop
  | ret (a : α) (s : σ) : Ends act (ret a) s (.ok a) s
  | raise (e : ε) (s : σ) : Ends act (raise e) s (.error e) s
  | call {op : Op} {next : Except ε (Resp op) → Program Op Resp ε α} {s s' t : σ}
      {r : Except ε (Resp op)} {o : Except ε α} (ha : act op s r s')
      (h : Ends act (next r) s' o t) : Ends act (call op next) s o t

/-- The states a run of the program leaves behind wherever it is cut off. -/
inductive Visits (act : Acts Op Resp ε σ) : Program Op Resp ε α → σ → σ → Prop
  | start (p : Program Op Resp ε α) (s : σ) : Visits act p s s
  | call {op : Op} {next : Except ε (Resp op) → Program Op Resp ε α} {s s' t : σ}
      {r : Except ε (Resp op)} (ha : act op s r s') (h : Visits act (next r) s' t) :
      Visits act (call op next) s t

/-- A run with one choice of the environment for each operation. -/
def run (effect : χ → (op : Op) → σ → Except ε (Resp op) × σ) (luck : Nat → χ) :
    Program Op Resp ε α → σ → Except ε α × σ
  | ret a, s => (.ok a, s)
  | raise e, s => (.error e, s)
  | call op next, s =>
    run effect (fun n => luck (n + 1)) (next (effect (luck 0) op s).1) (effect (luck 0) op s).2

/-- The rest and the state after the first `n` operations of such a run. -/
def after (effect : χ → (op : Op) → σ → Except ε (Resp op) × σ) (luck : Nat → χ) :
    Nat → Program Op Resp ε α → σ → Program Op Resp ε α × σ
  | n + 1, call op next, s =>
    after effect (fun n => luck (n + 1)) n (next (effect (luck 0) op s).1) (effect (luck 0) op s).2
  | _, p, s => (p, s)

/-- The first `n` operations of such a run, each with its answer. -/
def trace (effect : χ → (op : Op) → σ → Except ε (Resp op) × σ) (luck : Nat → χ) :
    Nat → Program Op Resp ε α → σ → List ((op : Op) × Except ε (Resp op))
  | n + 1, call op next, s =>
    ⟨op, (effect (luck 0) op s).1⟩ ::
      trace effect (fun n => luck (n + 1)) n (next (effect (luck 0) op s).1)
        (effect (luck 0) op s).2
  | _, _, _ => []

/-- The operations of the whole of such a run. -/
def log (effect : χ → (op : Op) → σ → Except ε (Resp op) × σ) (luck : Nat → χ) :
    Program Op Resp ε α → σ → List ((op : Op) × Except ε (Resp op))
  | call op next, s =>
    ⟨op, (effect (luck 0) op s).1⟩ ::
      log effect (fun n => luck (n + 1)) (next (effect (luck 0) op s).1) (effect (luck 0) op s).2
  | _, _ => []

/-- While the answers are among those expected, only allowed operations are sent. -/
def Sends (allowed : Op → Prop) (expected : (op : Op) → Except ε (Resp op) → Prop) :
    Program Op Resp ε α → Prop
  | ret _ => True
  | raise _ => True
  | call op next => allowed op ∧ ∀ r, expected op r → Sends allowed expected (next r)

/-- What a program owes while it runs, as a state that the answers move along: the
operations it may send in each and the answers that may come. -/
structure Discipline (Op : Type) (Resp : Op → Type) (ε π : Type) where
  allowed : π → Op → Prop
  expected : π → (op : Op) → Except ε (Resp op) → Prop
  next : π → (op : Op) → Except ε (Resp op) → π

/-- The state a discipline is in after these operations and answers. -/
def Discipline.along (D : Discipline Op Resp ε π) (x : π)
    (t : List ((op : Op) × Except ε (Resp op))) : π :=
  t.foldl (fun y e => D.next y e.1 e.2) x

/-- The program keeps to the discipline and ends as `final` allows. -/
def Follows (D : Discipline Op Resp ε π) (final : π → Except ε α → Prop) :
    π → Program Op Resp ε α → Prop
  | x, ret a => final x (.ok a)
  | x, raise e => final x (.error e)
  | x, call op next =>
    D.allowed x op ∧ ∀ r, D.expected x op r → Follows D final (D.next x op r) (next r)

/-- One operation, with what the environment makes of it; the rest of the program. -/
def step (effect : (op : Op) → σ → Except ε (Resp op) × σ) :
    Program Op Resp ε α → σ → Option (Program Op Resp ε α × σ)
  | call op next, s => some (next (effect op s).1, (effect op s).2)
  | _, _ => none

/-- Nothing is left to do. -/
def ended : Program Op Resp ε α → Bool
  | call _ _ => false
  | _ => true

variable {act : Acts Op Resp ε σ}

section Rules

variable {s t : σ}

theorem ends_ret {a : α} {o : Except ε α} :
    Ends act (pure a : Program Op Resp ε α) s o t ↔ o = .ok a ∧ t = s := by
  constructor
  · intro h
    cases h
    exact ⟨rfl, rfl⟩
  · rintro ⟨rfl, rfl⟩
    exact .ret a t

theorem ends_raise {e : ε} {o : Except ε α} :
    Ends act (raise e : Program Op Resp ε α) s o t ↔ o = .error e ∧ t = s := by
  constructor
  · intro h
    cases h
    exact ⟨rfl, rfl⟩
  · rintro ⟨rfl, rfl⟩
    exact .raise e t

theorem ends_perform {op : Op} {o : Except ε (Resp op)} :
    Ends act (perform op) s o t ↔ act op s o t := by
  constructor
  · intro h
    cases h with
    | @call _ _ _ s' _ r _ ha h =>
      cases r with
      | ok a =>
        obtain ⟨rfl, rfl⟩ := ends_ret.mp h
        exact ha
      | error e =>
        obtain ⟨rfl, rfl⟩ := ends_raise.mp h
        exact ha
  · intro h
    cases o with
    | ok a => exact .call h (.ret a t)
    | error e => exact .call h (.raise e t)

theorem ends_bind {p : Program Op Resp ε α} {k : α → Program Op Resp ε β} {o : Except ε β} :
    Ends act (p >>= k) s o t ↔
      (∃ e, Ends act p s (.error e) t ∧ o = .error e) ∨
        ∃ a u, Ends act p s (.ok a) u ∧ Ends act (k a) u o t := by
  constructor
  · intro h
    induction p generalizing s with
    | ret a => exact .inr ⟨a, s, .ret a s, h⟩
    | raise e =>
      obtain ⟨rfl, rfl⟩ := ends_raise.mp h
      exact .inl ⟨e, .raise e t, rfl⟩
    | call op next ih =>
      cases h with
      | call ha h =>
        rcases ih _ h with ⟨e, he, rfl⟩ | ⟨a, u, hp, hk⟩
        · exact .inl ⟨e, .call ha he, rfl⟩
        · exact .inr ⟨a, u, .call ha hp, hk⟩
  · rintro (⟨e, he, rfl⟩ | ⟨a, u, hp, hk⟩)
    · generalize hr : Except.error e = r at he
      induction he with
      | ret a s => cases hr
      | raise e' s =>
        cases hr
        exact .raise _ s
      | call ha _ ih => exact .call ha (ih hr)
    · generalize hr : Except.ok a = r at hp
      induction hp with
      | ret a' s =>
        cases hr
        exact hk
      | raise e s => cases hr
      | call ha _ ih => exact .call ha (ih hk hr)

/-- What follows a program that can end in one way only. -/
theorem ends_bind_exact {p : Program Op Resp ε α} {k : α → Program Op Resp ε β}
    {o : Except ε β} {a : α} {u : σ} (hp : ∀ o t, Ends act p s o t ↔ o = .ok a ∧ t = u) :
    Ends act (p >>= k) s o t ↔ Ends act (k a) u o t := by
  rw [ends_bind]
  constructor
  · rintro (⟨e, he, -⟩ | ⟨b, v, hv, hk⟩)
    · cases ((hp _ _).mp he).1
    · obtain ⟨hab, rfl⟩ := (hp _ _).mp hv
      cases hab
      exact hk
  · exact fun hk => .inr ⟨a, u, (hp _ _).mpr ⟨rfl, rfl⟩, hk⟩

theorem ends_attempt {p : Program Op Resp ε α} {o : Except ε (Except ε α)} :
    Ends act p.attempt s o t ↔ ∃ r, o = .ok r ∧ Ends act p s r t := by
  constructor
  · intro h
    induction p generalizing s with
    | ret a =>
      obtain ⟨rfl, rfl⟩ := ends_ret.mp h
      exact ⟨_, rfl, .ret a t⟩
    | raise e =>
      obtain ⟨rfl, rfl⟩ := ends_ret.mp h
      exact ⟨_, rfl, .raise e t⟩
    | call op next ih =>
      cases h with
      | call ha h =>
        obtain ⟨r, rfl, hr⟩ := ih _ h
        exact ⟨r, rfl, .call ha hr⟩
  · rintro ⟨r, rfl, h⟩
    induction h with
    | ret a s => exact .ret _ s
    | raise e s => exact .ret _ s
    | call ha _ ih => exact .call ha ih

/-- `try` and what follows it. -/
theorem ends_attempt_bind {p : Program Op Resp ε α} {k : Except ε α → Program Op Resp ε β}
    {o : Except ε β} :
    Ends act (p.attempt >>= k) s o t ↔ ∃ r u, Ends act p s r u ∧ Ends act (k r) u o t := by
  rw [ends_bind]
  constructor
  · rintro (⟨e, he, -⟩ | ⟨r, u, hp, hk⟩)
    · obtain ⟨r, hr, -⟩ := ends_attempt.mp he
      cases hr
    · obtain ⟨r', hr, hp'⟩ := ends_attempt.mp hp
      cases hr
      exact ⟨r, u, hp', hk⟩
  · rintro ⟨r, u, hp, hk⟩
    exact .inr ⟨r, u, ends_attempt.mpr ⟨r, rfl, hp⟩, hk⟩

theorem Ends.visits {p : Program Op Resp ε α} {o : Except ε α} (h : Ends act p s o t) :
    Visits act p s t := by
  induction h with
  | ret a s => exact .start _ s
  | raise e s => exact .start _ s
  | call ha _ ih => exact .call ha ih

theorem visits_pure {a : α} (h : Visits act (pure a : Program Op Resp ε α) s t) : t = s := by
  cases h
  rfl

theorem visits_perform {op : Op} (h : Visits act (perform op : Program Op Resp ε (Resp op)) s t) :
    t = s ∨ ∃ r, act op s r t := by
  cases h with
  | start => exact .inl rfl
  | @call _ _ _ s' _ r ha h =>
    cases r with
    | ok a =>
      obtain rfl := visits_pure h
      exact .inr ⟨_, ha⟩
    | error e =>
      cases h
      exact .inr ⟨_, ha⟩

theorem visits_bind {p : Program Op Resp ε α} {k : α → Program Op Resp ε β}
    (h : Visits act (p >>= k) s t) :
    Visits act p s t ∨ ∃ a u, Ends act p s (.ok a) u ∧ Visits act (k a) u t := by
  induction p generalizing s with
  | ret a => exact .inr ⟨a, s, .ret a s, h⟩
  | raise e =>
    cases h
    exact .inl (.start _ _)
  | call op next ih =>
    cases h with
    | start => exact .inl (.start _ _)
    | call ha h =>
      rcases ih _ h with hp | ⟨a, u, hp, hk⟩
      · exact .inl (.call ha hp)
      · exact .inr ⟨a, u, .call ha hp, hk⟩

theorem Visits.bind_left {p : Program Op Resp ε α} {k : α → Program Op Resp ε β}
    (h : Visits act p s t) : Visits act (p >>= k) s t := by
  induction h with
  | start p s => exact .start _ s
  | call ha _ ih => exact .call ha ih

theorem Ends.bind_visits {p : Program Op Resp ε α} {k : α → Program Op Resp ε β} {a : α}
    {u : σ} (h : Ends act p s (.ok a) u) (hk : Visits act (k a) u t) :
    Visits act (p >>= k) s t := by
  generalize hr : Except.ok a = r at h
  induction h with
  | ret b s =>
    cases hr
    exact hk
  | raise e s => cases hr
  | call ha _ ih => exact .call ha (ih hk hr)

theorem visits_attempt {p : Program Op Resp ε α} (h : Visits act p.attempt s t) :
    Visits act p s t := by
  induction p generalizing s with
  | ret a =>
    cases h
    exact .start _ _
  | raise e =>
    cases h
    exact .start _ _
  | call op next ih =>
    cases h with
    | start => exact .start _ _
    | call ha h => exact .call ha (ih _ h)

theorem visits_attempt_bind {p : Program Op Resp ε α} {k : Except ε α → Program Op Resp ε β}
    (h : Visits act (p.attempt >>= k) s t) :
    Visits act p s t ∨ ∃ r u, Ends act p s r u ∧ Visits act (k r) u t := by
  rcases visits_bind h with h | ⟨r, u, hp, hk⟩
  · exact .inl (visits_attempt h)
  · obtain ⟨r', hr, hp'⟩ := ends_attempt.mp hp
    cases hr
    exact .inr ⟨r, u, hp', hk⟩

end Rules

section Sends

variable {allowed : Op → Prop} {expected : (op : Op) → Except ε (Resp op) → Prop}

theorem sends_perform {op : Op} (h : allowed op) :
    (perform op : Program Op Resp ε (Resp op)).Sends allowed expected := by
  refine ⟨h, fun r _ => ?_⟩
  cases r <;> trivial

theorem sends_bind {p : Program Op Resp ε α} {k : α → Program Op Resp ε β}
    (hp : p.Sends allowed expected) (hk : ∀ a, (k a).Sends allowed expected) :
    (p >>= k).Sends allowed expected := by
  induction p with
  | ret a => exact hk a
  | raise e => trivial
  | call op next ih => exact ⟨hp.1, fun r hr => ih r (hp.2 r hr)⟩

theorem sends_attempt {p : Program Op Resp ε α} (hp : p.Sends allowed expected) :
    p.attempt.Sends allowed expected := by
  induction p with
  | ret a => trivial
  | raise e => trivial
  | call op next ih => exact ⟨hp.1, fun r hr => ih r (hp.2 r hr)⟩

theorem Sends.mono {allowed' : Op → Prop} (hall : ∀ op, allowed op → allowed' op)
    {p : Program Op Resp ε α} (hp : p.Sends allowed expected) : p.Sends allowed' expected := by
  induction p with
  | ret a => trivial
  | raise e => trivial
  | call op next ih => exact ⟨hall op hp.1, fun r hr => ih r (hp.2 r hr)⟩

theorem Sends.expect {expected' : (op : Op) → Except ε (Resp op) → Prop}
    (hall : ∀ op r, expected' op r → expected op r) {p : Program Op Resp ε α}
    (hp : p.Sends allowed expected) : p.Sends allowed expected' := by
  induction p with
  | ret a => trivial
  | raise e => trivial
  | call op next ih => exact ⟨hp.1, fun r hr => ih r (hp.2 r (hall op r hr))⟩

/-- Of an operation that comes first only the answers that may come matter. -/
theorem sends_perform_bind {op : Op} {k : Resp op → Program Op Resp ε β} (h : allowed op)
    (hk : ∀ a, expected op (.ok a) → (k a).Sends allowed expected) :
    (perform op >>= k).Sends allowed expected := by
  refine ⟨h, fun r hr => ?_⟩
  cases r with
  | error e => trivial
  | ok a => exact hk a hr

theorem sends_attempt_perform_bind {op : Op} {k : Except ε (Resp op) → Program Op Resp ε β}
    (h : allowed op) (hk : ∀ r, expected op r → (k r).Sends allowed expected) :
    (attempt (perform op) >>= k).Sends allowed expected := by
  refine ⟨h, fun r hr => ?_⟩
  cases r with
  | error e => exact hk _ hr
  | ok a => exact hk _ hr

/-- A program that sends only what keeps an invariant, as long as the answers are those of
states that have it, keeps it operation by operation, whoever runs beside it. -/
theorem Sends.step {effect : (op : Op) → σ → Except ε (Resp op) × σ} {I : σ → Prop}
    (hkeeps : ∀ op s, allowed op → I s → I (effect op s).2)
    (hexpected : ∀ op s, I s → expected op (effect op s).1) {p q : Program Op Resp ε α} {s t : σ}
    (hp : p.Sends allowed expected) (hs : I s) (h : p.step effect s = some (q, t)) :
    q.Sends allowed expected ∧ I t := by
  cases p with
  | ret a => cases h
  | raise e => cases h
  | call op next =>
    obtain ⟨rfl, rfl⟩ := Prod.mk.inj (Option.some.inj h)
    exact ⟨hp.2 _ (hexpected op s hs), hkeeps op s hp.1 hs⟩

end Sends

section Follows

variable {D : Discipline Op Resp ε π} {x : π}

theorem step_cases {effect : (op : Op) → σ → Except ε (Resp op) × σ}
    {p q : Program Op Resp ε α} {s t : σ} (h : step effect p s = some (q, t)) :
    ∃ op next, p = call op next ∧ q = next (effect op s).1 ∧ t = (effect op s).2 := by
  cases p with
  | ret a => cases h
  | raise e => cases h
  | call op next =>
    obtain ⟨rfl, rfl⟩ := Prod.mk.inj (Option.some.inj h)
    exact ⟨op, next, rfl, rfl, rfl⟩

theorem Follows.mono {final final' : π → Except ε α → Prop} (hfinal : ∀ y o, final y o → final' y o)
    {p : Program Op Resp ε α} (h : Follows D final x p) : Follows D final' x p := by
  induction p generalizing x with
  | ret a => exact hfinal x _ h
  | raise e => exact hfinal x _ h
  | call op next ih => exact ⟨h.1, fun r hr => ih r (h.2 r hr)⟩

theorem follows_bind {final : π → Except ε β → Prop} {p : Program Op Resp ε α}
    {k : α → Program Op Resp ε β}
    (h : Follows D (fun y o => match o with
      | .ok a => Follows D final y (k a)
      | .error e => final y (.error e)) x p) : Follows D final x (p >>= k) := by
  induction p generalizing x with
  | ret a => exact h
  | raise e => exact h
  | call op next ih => exact ⟨h.1, fun r hr => ih r (h.2 r hr)⟩

theorem follows_attempt {final : π → Except ε (Except ε α) → Prop} {p : Program Op Resp ε α}
    (h : Follows D (fun y o => final y (.ok o)) x p) : Follows D final x p.attempt := by
  induction p generalizing x with
  | ret a => exact h
  | raise e => exact h
  | call op next ih => exact ⟨h.1, fun r hr => ih r (h.2 r hr)⟩

theorem follows_perform {op : Op} {final : π → Except ε (Resp op) → Prop}
    (hop : D.allowed x op) (h : ∀ r, D.expected x op r → final (D.next x op r) r) :
    Follows D final x (perform op) := by
  refine ⟨hop, fun r hr => ?_⟩
  cases r with
  | ok a => exact h _ hr
  | error e => exact h _ hr

/-- Operations that leave the obligation as it is. -/
theorem follows_of_sends {final : π → Except ε α → Prop} {p : Program Op Resp ε α}
    (h : p.Sends (fun op => D.allowed x op ∧ ∀ r, D.next x op r = x) (fun _ _ => True))
    (hfinal : ∀ o, final x o) : Follows D final x p := by
  induction p with
  | ret a => exact hfinal _
  | raise e => exact hfinal _
  | call op next ih =>
    refine ⟨h.1.1, fun r _ => ?_⟩
    rw [h.1.2 r]
    exact ih r (h.2 r trivial)

/-- A state that asks for nothing is kept to by every program. -/
theorem follows_of_free {final : π → Except ε α → Prop} (free : π → Prop)
    (hallowed : ∀ y op, free y → D.allowed y op) (hfree : ∀ y op r, free y → free (D.next y op r))
    (hfinal : ∀ y o, free y → final y o) (hx : free x) (p : Program Op Resp ε α) :
    Follows D final x p := by
  induction p generalizing x with
  | ret a => exact hfinal x _ hx
  | raise e => exact hfinal x _ hx
  | call op next ih => exact ⟨hallowed x op hx, fun r _ => ih r (hfree x op r hx)⟩

/-- What is left of a program keeps to the discipline as far as it has come. -/
theorem Follows.after {final : π → Except ε α → Prop} {p : Program Op Resp ε α}
    {effect : χ → (op : Op) → σ → Except ε (Resp op) × σ} (luck : Nat → χ)
    (hexp : ∀ y c op s, D.expected y op (effect c op s).1) (h : Follows D final x p) (n : Nat)
    (s : σ) :
    Follows D final (D.along x (trace effect luck n p s)) (Program.after effect luck n p s).1 := by
  induction p generalizing luck x s n with
  | ret a => cases n <;> exact h
  | raise e => cases n <;> exact h
  | call op next ih =>
    cases n with
    | zero => exact h
    | succ n => exact ih _ _ (h.2 _ (hexp x _ op s)) n _

section Joint

variable {final : π → Except ε α → Prop} {p : Program Op Resp ε α} {I : π → σ → Prop}
  {effect : χ → (op : Op) → σ → Except ε (Resp op) × σ}

/-- What holds of the discipline and of the state together, wherever the run is cut off. -/
theorem Follows.invariant_after (hexp : ∀ y c op s, D.expected y op (effect c op s).1)
    (hstep : ∀ y c op s, D.allowed y op → I y s →
      I (D.next y op (effect c op s).1) (effect c op s).2)
    (h : Follows D final x p) (luck : Nat → χ) (n : Nat) {s : σ} (hs : I x s) :
    I (D.along x (trace effect luck n p s)) (Program.after effect luck n p s).2 := by
  induction p generalizing luck x s n with
  | ret a => cases n <;> exact hs
  | raise e => cases n <;> exact hs
  | call op next ih =>
    cases n with
    | zero => exact hs
    | succ n => exact ih _ (h.2 _ (hexp x _ op s)) _ n (hstep x _ op s h.1 hs)

theorem Follows.invariant_run (hexp : ∀ y c op s, D.expected y op (effect c op s).1)
    (hstep : ∀ y c op s, D.allowed y op → I y s →
      I (D.next y op (effect c op s).1) (effect c op s).2)
    (h : Follows D final x p) (luck : Nat → χ) {s : σ} (hs : I x s) :
    I (D.along x (log effect luck p s)) (run effect luck p s).2 := by
  induction p generalizing luck x s with
  | ret a => exact hs
  | raise e => exact hs
  | call op next ih => exact ih _ (h.2 _ (hexp x _ op s)) _ (hstep x _ op s h.1 hs)

end Joint

end Follows

theorem Ends.mono {act' : Acts Op Resp ε σ} (hact : ∀ op s r s', act op s r s' → act' op s r s')
    {p : Program Op Resp ε α} {s t : σ} {o : Except ε α} (h : Ends act p s o t) :
    Ends act' p s o t := by
  induction h with
  | ret a s => exact .ret a s
  | raise e s => exact .raise e s
  | call ha _ ih => exact .call (hact _ _ _ _ ha) ih

theorem ends_run {effect : χ → (op : Op) → σ → Except ε (Resp op) × σ} {luck : Nat → χ}
    (hact : ∀ n op s, act op s (effect (luck n) op s).1 (effect (luck n) op s).2)
    (p : Program Op Resp ε α) (s : σ) :
    Ends act p s (run effect luck p s).1 (run effect luck p s).2 := by
  induction p generalizing luck s with
  | ret a => exact .ret a s
  | raise e => exact .raise e s
  | call op next ih => exact .call (hact 0 _ _) (ih _ (fun n => hact (n + 1)) _)

theorem visits_after {effect : χ → (op : Op) → σ → Except ε (Resp op) × σ} {luck : Nat → χ}
    (hact : ∀ n op s, act op s (effect (luck n) op s).1 (effect (luck n) op s).2) (n : Nat)
    (p : Program Op Resp ε α) (s : σ) : Visits act p s (after effect luck n p s).2 := by
  induction p generalizing luck s n with
  | ret a => cases n <;> exact .start _ s
  | raise e => cases n <;> exact .start _ s
  | call op next ih =>
    cases n with
    | zero => exact .start _ s
    | succ n => exact .call (hact 0 _ _) (ih _ (fun n => hact (n + 1)) _ _)

/-- Where every operation has an answer, every program comes to an end. -/
theorem exists_ends (hact : ∀ op s, ∃ r s', act op s r s') (p : Program Op Resp ε α) (s : σ) :
    ∃ o t, Ends act p s o t := by
  induction p generalizing s with
  | ret a => exact ⟨_, s, .ret a s⟩
  | raise e => exact ⟨_, s, .raise e s⟩
  | call op next ih =>
    obtain ⟨r, s', ha⟩ := hact op s
    obtain ⟨o, t, h⟩ := ih r s'
    exact ⟨o, t, .call ha h⟩

theorem Visits.mono {act' : Acts Op Resp ε σ} (hact : ∀ op s r s', act op s r s' → act' op s r s')
    {p : Program Op Resp ε α} {s t : σ} (h : Visits act p s t) : Visits act' p s t := by
  induction h with
  | start p s => exact .start p s
  | call ha _ ih => exact .call (hact _ _ _ _ ha) ih

/-- What every operation sent preserves, the program preserves. -/
theorem Ends.invariant {I : σ → Prop} {allowed : Op → Prop} {p : Program Op Resp ε α} {s t : σ}
    {o : Except ε α} (h : Ends act p s o t) (hp : p.Sends allowed (fun _ _ => True))
    (hact : ∀ op s r s', allowed op → act op s r s' → I s → I s') (hs : I s) : I t := by
  induction h with
  | ret a s => exact hs
  | raise e s => exact hs
  | call ha _ ih => exact ih (hp.2 _ trivial) (hact _ _ _ _ hp.1 ha hs)

theorem Visits.invariant {I : σ → Prop} {allowed : Op → Prop} {p : Program Op Resp ε α} {s t : σ}
    (h : Visits act p s t) (hp : p.Sends allowed (fun _ _ => True))
    (hact : ∀ op s r s', allowed op → act op s r s' → I s → I s') (hs : I s) : I t := by
  induction h with
  | start p s => exact hs
  | call ha _ ih => exact ih (hp.2 _ trivial) (hact _ _ _ _ hp.1 ha hs)

end Program
