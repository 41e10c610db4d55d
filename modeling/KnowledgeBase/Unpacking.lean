import Mathlib.Data.List.Basic

/-! Where a path leads, component by component, from the directory it is taken in, and the
components that a renaming of characters keeps. -/

namespace Unpacking

variable {κ : Type*}

inductive Component (κ : Type*) where
  | here
  | up
  | into (name : κ)

def walk (dir : List κ) : List (Component κ) → List κ
  | [] => dir
  | .here :: cs => walk dir cs
  | .up :: cs => walk dir.dropLast cs
  | .into name :: cs => walk (dir ++ [name]) cs

/-- A path that never goes up stays below where it starts. -/
theorem prefix_walk {cs : List (Component κ)} (h : ∀ c ∈ cs, c ≠ .up) (dir : List κ) :
    dir <+: walk dir cs := by
  induction cs generalizing dir with
  | nil => exact List.prefix_refl _
  | cons c cs ih =>
    have hrest := ih fun c' hc' => h c' (List.mem_cons_of_mem _ hc')
    cases c with
    | here => exact hrest dir
    | up => exact absurd rfl (h .up List.mem_cons_self)
    | into name => exact (List.prefix_append dir [name]).trans (hrest _)

section Pieces

variable {α β : Type*} {p : α → Bool} {q : β → Bool} {f : α → β}

/-- The first piece of a list is the whole of it, or a separator follows. -/
theorem of_splitOnP_eq_cons {l r : List α} {rs : List (List α)} (h : l.splitOnP p = r :: rs) :
    rs = [] ∧ l = r ∨ ∃ sep as, p sep = true ∧ l = r ++ sep :: as ∧ as.splitOnP p = rs := by
  induction l generalizing r with
  | nil =>
    rw [List.splitOnP_nil] at h
    obtain ⟨rfl, rfl⟩ := List.cons.inj h
    exact .inl ⟨rfl, rfl⟩
  | cons c l ih =>
    rw [List.splitOnP_cons_eq_if_modifyHead] at h
    split at h
    next hc =>
      obtain ⟨rfl, rfl⟩ := List.cons.inj h
      exact .inr ⟨c, l, hc, rfl, rfl⟩
    next =>
      obtain ⟨r', rs', hl⟩ := List.exists_cons_of_ne_nil (List.splitOnP_ne_nil p l)
      rw [hl, List.modifyHead_cons] at h
      obtain ⟨rfl, rfl⟩ := List.cons.inj h
      rcases ih hl with ⟨rfl, rfl⟩ | ⟨sep, as, hsep, rfl, has⟩
      · exact .inl ⟨rfl, rfl⟩
      · exact .inr ⟨sep, as, hsep, rfl, has⟩

/-- A piece that a renaming puts no separator in is a piece of the renamed list, if separators
stay separators. -/
theorem map_mem_splitOnP (hpq : ∀ c, p c = true → q (f c) = true) {x : List α}
    (hx : ∀ c ∈ x, q (f c) = false) {l : List α} (h : x ∈ l.splitOnP p) :
    x.map f ∈ (l.map f).splitOnP q := by
  have hno : ∀ c ∈ x.map f, q c = false := by
    intro c hc
    obtain ⟨d, hd, rfl⟩ := List.mem_map.mp hc
    exact hx d hd
  induction hs : l.splitOnP p generalizing l with
  | nil => exact absurd hs (List.splitOnP_ne_nil p l)
  | cons r rs ih =>
    rw [hs] at h
    rcases of_splitOnP_eq_cons hs with ⟨rfl, rfl⟩ | ⟨sep, as, hsep, rfl, has⟩
    · obtain rfl := List.mem_singleton.mp h
      rw [List.splitOnP_eq_singleton hno]
      exact List.mem_singleton.mpr rfl
    · rw [List.map_append, List.map_cons, List.splitOnP_append_cons _ _ (hpq sep hsep)]
      rcases List.mem_cons.mp h with rfl | h
      · rw [List.splitOnP_eq_singleton hno]
        exact List.mem_append_left _ (List.mem_singleton.mpr rfl)
      · exact List.mem_append_right _ (ih (has ▸ h) has)

end Pieces

end Unpacking
