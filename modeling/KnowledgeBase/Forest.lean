import Mathlib.Data.List.Nodup

/-! Trees side by side, each node linked to its first child and to the node after it. Taking nodes out
with all that is under them, one by one or at once, and pruning a forest down to some of its nodes. -/

/-- A node with the nodes under it and the nodes after it. -/
inductive Forest (α : Type*) where
  | nil
  | node (a : α) (children rest : Forest α)

namespace Forest

variable {α : Type*}

/-- A node before those under it, and these before the ones after it. -/
def preorder : Forest α → List α
  | nil => []
  | node a children rest => a :: (preorder children ++ preorder rest)

/-- Without the nodes that pass and all that is under them. -/
def strike (p : α → Bool) : Forest α → Forest α
  | nil => nil
  | node a children rest =>
    if p a then strike p rest else node a (strike p children) (strike p rest)

/-- The nodes that pass, each with all that is under it. -/
def marked (p : α → Bool) : Forest α → List (α × Forest α)
  | nil => []
  | node a children rest =>
    if p a then (a, children) :: (marked p children ++ marked p rest)
    else marked p children ++ marked p rest

/-- Down to the nodes that pass or are to stay, whole, and the nodes over those that pass. -/
def prune (stays p : α → Bool) : Forest α → Forest α
  | nil => nil
  | node a children rest =>
    if stays a || p a then node a children (prune stays p rest)
    else if (a :: preorder children).any p then
      node a (prune stays p children) (prune stays p rest)
    else prune stays p rest

def leaves : Forest α → List α
  | nil => []
  | node a nil rest => a :: leaves rest
  | node _ (node c cs rs) rest => leaves (node c cs rs) ++ leaves rest

/-- The nodes with nodes under them. -/
def branches : Forest α → List α
  | nil => []
  | node _ nil rest => branches rest
  | node a (node c cs rs) rest => a :: (branches (node c cs rs) ++ branches rest)

/-- The nodes that are neither closed nor under one that is. -/
def outside (closed : α → Bool) : Forest α → List α
  | nil => []
  | node a children rest =>
    if closed a then outside closed rest
    else a :: (outside closed children ++ outside closed rest)

variable {p q stays : α → Bool} {f : Forest α} {a : α}

theorem strike_none (f : Forest α) : strike (fun _ => false) f = f := by
  induction f with
  | nil => rfl
  | node a children rest ihc ihr => simp [strike, ihc, ihr]

/-- Taking out twice is taking out at once. -/
theorem strike_strike (p q : α → Bool) (f : Forest α) :
    strike q (strike p f) = strike (fun a => p a || q a) f := by
  induction f with
  | nil => rfl
  | node a children rest ihc ihr =>
    by_cases hp : p a = true
    · simp [strike, hp, ihr]
    · by_cases hq : q a = true
      · simp [strike, hp, hq, ihr]
      · simp [strike, hp, hq, ihc, ihr]

theorem foldl_strike {ι : Type*} (p : ι → α → Bool) (l : List ι) (f : Forest α) :
    l.foldl (fun f i => strike (p i) f) f = strike (fun a => l.any fun i => p i a) f := by
  induction l generalizing f with
  | nil => simp [strike_none]
  | cons i l ih =>
    rw [List.foldl_cons, ih, strike_strike]
    simp only [List.any_cons]

theorem strike_congr (h : ∀ a ∈ preorder f, p a = q a) : strike p f = strike q f := by
  induction f with
  | nil => rfl
  | node a children rest ihc ihr =>
    simp only [preorder, List.mem_cons, List.mem_append] at h
    rw [strike, strike, h a (.inl rfl), ihc fun b hb => h b (.inr (.inl hb)),
      ihr fun b hb => h b (.inr (.inr hb))]

theorem not_of_mem_strike (ha : a ∈ preorder (strike p f)) : p a = false := by
  induction f with
  | nil => cases ha
  | node b children rest ihc ihr =>
    rw [strike] at ha
    split at ha
    · exact ihr ha
    · rename_i hb
      simp only [preorder, List.mem_cons, List.mem_append] at ha
      rcases ha with rfl | ha | ha
      · simpa using hb
      · exact ihc ha
      · exact ihr ha

theorem marked_eq_nil (h : (preorder f).any p = false) : marked p f = [] := by
  induction f with
  | nil => rfl
  | node a children rest ihc ihr =>
    simp only [preorder, List.any_cons, List.any_append, Bool.or_eq_false_iff] at h
    simp [marked, h.1, ihc h.2.1, ihr h.2.2]

/-- Pruning loses none of the nodes that pass, and nothing under them. -/
theorem marked_prune (stays p : α → Bool) (f : Forest α) :
    marked p (prune stays p f) = marked p f := by
  induction f with
  | nil => rfl
  | node a children rest ihc ihr =>
    rw [prune]
    split
    · rw [marked, marked, ihr]
    · rename_i hopen
      have hp : p a = false := by
        rw [Bool.not_eq_true, Bool.or_eq_false_iff] at hopen
        exact hopen.2
      split
      · simp [marked, hp, ihc, ihr]
      · rename_i hnone
        rw [List.any_cons, Bool.not_eq_true, Bool.or_eq_false_iff] at hnone
        rw [ihr, marked, hnone.1, marked_eq_nil hnone.2]
        rfl

theorem preorder_prune (stays p : α → Bool) (f : Forest α) :
    (preorder (prune stays p f)).Sublist (preorder f) := by
  induction f with
  | nil => exact .refl _
  | node a children rest ihc ihr =>
    rw [prune]
    split
    · exact ((List.Sublist.refl _).append ihr).cons_cons a
    · split
      · exact (ihc.append ihr).cons_cons a
      · exact (ihr.trans (List.sublist_append_right _ _)).cons a

theorem mem_branches_node {children rest : Forest α} :
    (a ∈ branches children ∨ a ∈ branches rest) → a ∈ branches (node b children rest) := by
  intro h
  cases children with
  | nil => exact h.elim nofun id
  | node c cs rs =>
    rw [branches, List.mem_cons, List.mem_append]
    exact .inr h

/-- Outside of what stays whole, what is left of a forest has something under it. -/
theorem mem_branches_of_prune (ha : a ∈ outside (fun a => stays a || p a) (prune stays p f)) :
    a ∈ branches f := by
  induction f with
  | nil => cases ha
  | node b children rest ihc ihr =>
    rw [prune] at ha
    split at ha
    · rename_i hclosed
      rw [outside, if_pos hclosed] at ha
      exact mem_branches_node (.inr (ihr ha))
    · rename_i hopen
      split at ha
      · rename_i hsome
        rw [outside, if_neg hopen, List.mem_cons, List.mem_append] at ha
        rcases ha with rfl | ha | ha
        · cases children with
          | nil =>
            simp only [preorder, List.any_cons, List.any_nil, Bool.or_false] at hsome
            simp [hsome] at hopen
          | node c cs rs => exact List.mem_cons_self
        · exact mem_branches_node (.inl (ihc ha))
        · exact mem_branches_node (.inr (ihr ha))
      · exact mem_branches_node (.inr (ihr ha))

theorem leaves_branches_perm (f : Forest α) : (leaves f ++ branches f).Perm (preorder f) := by
  induction f with
  | nil => exact .refl _
  | node a children rest ihc ihr =>
    cases children with
    | nil => exact (ihr.cons a)
    | node c cs rs =>
      have hmove : (leaves (node c cs rs) ++ leaves rest ++
          a :: (branches (node c cs rs) ++ branches rest)).Perm
          (a :: ((leaves (node c cs rs) ++ branches (node c cs rs)) ++
            (leaves rest ++ branches rest))) := by
        refine List.perm_middle.trans (List.Perm.cons a ?_)
        rw [List.append_assoc, List.append_assoc]
        exact (List.Perm.append_left _ (by
          rw [← List.append_assoc, ← List.append_assoc]
          exact List.perm_append_comm.append_right _))
      exact hmove.trans ((ihc.append ihr).cons a)

/-- No leaf is left outside of what stays whole. -/
theorem not_leaf_of_prune (hf : (preorder f).Nodup)
    (ha : a ∈ outside (fun a => stays a || p a) (prune stays p f)) : a ∉ leaves f := by
  have hnodup := (leaves_branches_perm f).nodup_iff.mpr hf
  exact fun hleaf => List.disjoint_of_nodup_append hnodup hleaf (mem_branches_of_prune ha)

end Forest
