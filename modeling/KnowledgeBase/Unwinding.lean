import Mathlib.Logic.Basic

/-! Noninterference by unwinding. A server answers requests one after the other; what a caller is
answered depends on a view of the state alone, if each answer does and each step keeps views that
are equal equal. -/

namespace Unwinding

variable {σ α ρ β : Type*}

def replies (step : α → σ → ρ × σ) : σ → List α → List ρ
  | _, [] => []
  | s, a :: as => (step a s).1 :: replies step (step a s).2 as

def final (step : α → σ → ρ × σ) : σ → List α → σ
  | s, [] => s
  | s, a :: as => final step (step a s).2 as

/-- The view settles the answer to a request, and the view after it. -/
def Settles (step : α → σ → ρ × σ) (view : σ → β) : Prop :=
  ∀ a s t, view s = view t → (step a s).1 = (step a t).1 ∧ view (step a s).2 = view (step a t).2

variable {step : α → σ → ρ × σ} {view : σ → β}

theorem Settles.replies (h : Settles step view) {s t : σ} (hv : view s = view t) (as : List α) :
    replies step s as = replies step t as ∧ view (final step s as) = view (final step t as) := by
  induction as generalizing s t with
  | nil => exact ⟨rfl, hv⟩
  | cons a as ih =>
    obtain ⟨hreply, hnext⟩ := h a s t hv
    obtain ⟨hrest, hfinal⟩ := ih hnext
    exact ⟨by simp only [Unwinding.replies, hreply, hrest], hfinal⟩

end Unwinding
