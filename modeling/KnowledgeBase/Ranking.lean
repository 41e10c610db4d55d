import Mathlib.Data.List.Nodup
import Mathlib.Data.List.Sort

/-! Rows ordered by a key, numbered and cut, and the rows of two lists joined by a key. -/

namespace Ranking

variable {α β κ : Type*}

section Order

variable [LinearOrder κ] {key : α → κ} {rows rows' : List α} {n : Nat}

/-- `ORDER BY key`. -/
def orderBy (key : α → κ) (rows : List α) : List α :=
  rows.insertionSort fun a b => key a ≤ key b

/-- `ORDER BY key LIMIT n`, each row with its `row_number()`. -/
def top (key : α → κ) (n : Nat) (rows : List α) : List (α × Nat) :=
  ((orderBy key rows).zipIdx 1).take n

theorem orderBy_perm (key : α → κ) (rows : List α) : (orderBy key rows).Perm rows :=
  List.perm_insertionSort _ rows

theorem orderBy_pairwise (key : α → κ) (rows : List α) :
    (orderBy key rows).Pairwise fun a b => key a ≤ key b := by
  have : Std.Total fun a b : α => key a ≤ key b := ⟨fun a b => le_total (key a) (key b)⟩
  have : IsTrans α fun a b => key a ≤ key b := ⟨fun _ _ _ => le_trans⟩
  exact List.pairwise_insertionSort _ rows

/-- Without ties the order depends on which rows there are, and not on how they lie. -/
theorem orderBy_eq_of_perm (h : rows.Perm rows')
    (hties : ∀ a ∈ rows, ∀ b ∈ rows, key a = key b → a = b) :
    orderBy key rows = orderBy key rows' := by
  have hperm := (orderBy_perm key rows).trans (h.trans (orderBy_perm key rows').symm)
  refine hperm.eq_of_pairwise ?_ (orderBy_pairwise key rows) (orderBy_pairwise key rows')
  intro a b ha hb hab hba
  have ha' : a ∈ rows := (orderBy_perm key rows).mem_iff.mp ha
  have hb' : b ∈ rows := h.mem_iff.mpr ((orderBy_perm key rows').mem_iff.mp hb)
  exact hties a ha' b hb' (le_antisymm hab hba)

theorem top_eq_of_perm (h : rows.Perm rows')
    (hties : ∀ a ∈ rows, ∀ b ∈ rows, key a = key b → a = b) :
    top key n rows = top key n rows' := by
  rw [top, top, orderBy_eq_of_perm h hties]

theorem map_fst_top (key : α → κ) (n : Nat) (rows : List α) :
    (top key n rows).map Prod.fst = (orderBy key rows).take n := by
  rw [top, List.map_take, List.zipIdx_map_fst]

theorem mem_of_mem_top {p : α × Nat} (h : p ∈ top key n rows) : p.1 ∈ rows := by
  have hmem : p.1 ∈ (orderBy key rows).take n := by
    rw [← map_fst_top]
    exact List.mem_map_of_mem h
  exact (orderBy_perm key rows).mem_iff.mp (List.mem_of_mem_take hmem)

theorem top_ne_nil (hn : 0 < n) (h : rows ≠ []) : top key n rows ≠ [] := by
  have hlen := List.length_pos_iff.mpr h
  rw [ne_eq, ← List.length_eq_zero_iff, top, List.length_take, List.length_zipIdx,
    (orderBy_perm key rows).length_eq]
  omega

theorem nodup_top (key : α → κ) (n : Nat) {γ : Type*} {f : α → γ} (h : (rows.map f).Nodup) :
    ((top key n rows).map fun p => f p.1).Nodup := by
  have hmap : (top key n rows).map (fun p => f p.1) = ((orderBy key rows).take n).map f := by
    rw [← map_fst_top, List.map_map]
    rfl
  rw [hmap]
  have hnd : ((orderBy key rows).map f).Nodup := ((orderBy_perm key rows).map f).nodup_iff.mpr h
  exact hnd.sublist ((List.take_sublist n _).map f)

end Order

section Join

/-- A row of an outer join: with a row of each side, or of one side alone. -/
inductive Joined (α β : Type*) where
  | both (a : α) (b : β)
  | left (a : α)
  | right (b : β)
  deriving DecidableEq

namespace Joined

def left? : Joined α β → Option α
  | both a _ | left a => some a
  | right _ => none

def right? : Joined α β → Option β
  | both _ b | right b => some b
  | left _ => none

/-- `coalesce(left.key, right.key)`. -/
def key (f : α → κ) (g : β → κ) : Joined α β → κ
  | both a _ | left a => f a
  | right b => g b

end Joined

variable [DecidableEq κ] (f : α → κ) (g : β → κ) {xs : List α} {ys : List β}

def matched (ys : List β) (a : α) : List (Joined α β) :=
  match ys.filter fun b => g b = f a with
  | [] => [.left a]
  | b :: bs => (b :: bs).map (.both a)

/-- `xs FULL OUTER JOIN ys ON f = g`. -/
def fullJoin (xs : List α) (ys : List β) : List (Joined α β) :=
  xs.flatMap (matched f g ys) ++
    (ys.filter fun b => decide (g b ∉ xs.map f)).map .right

variable {f g}

theorem exists_left (ys : List β) {a : α} (ha : a ∈ xs) :
    ∃ r ∈ fullJoin f g xs ys, r.left? = some a := by
  have hex : ∃ r ∈ matched f g ys a, r.left? = some a := by
    unfold matched
    split
    · exact ⟨.left a, by simp, rfl⟩
    · rename_i b bs _
      exact ⟨.both a b, by simp, rfl⟩
  obtain ⟨r, hr, he⟩ := hex
  exact ⟨r, List.mem_append_left _ (List.mem_flatMap.mpr ⟨a, ha, hr⟩), he⟩

theorem exists_right (xs : List α) {b : β} (hb : b ∈ ys) :
    ∃ r ∈ fullJoin f g xs ys, r.right? = some b := by
  by_cases hk : g b ∈ xs.map f
  · obtain ⟨a, ha, he⟩ := List.mem_map.mp hk
    have hf : b ∈ ys.filter fun b => g b = f a := by simp [hb, he]
    have hmem : .both a b ∈ matched f g ys a := by
      unfold matched
      split
      · rename_i hnil
        rw [hnil] at hf
        cases hf
      · rename_i c cs hcs
        rw [hcs] at hf
        exact List.mem_map_of_mem hf
    exact ⟨.both a b, List.mem_append_left _ (List.mem_flatMap.mpr ⟨a, ha, hmem⟩), rfl⟩
  · refine ⟨.right b, List.mem_append_right _ (List.mem_map_of_mem ?_), rfl⟩
    simpa [hb] using hk

theorem mem_fullJoin {r : Joined α β} (hr : r ∈ fullJoin f g xs ys) :
    (∀ a, r.left? = some a → a ∈ xs) ∧ ∀ b, r.right? = some b → b ∈ ys := by
  rcases List.mem_append.mp hr with hr | hr
  · obtain ⟨a, ha, hr⟩ := List.mem_flatMap.mp hr
    unfold matched at hr
    split at hr
    · obtain rfl := List.mem_singleton.mp hr
      constructor
      · intro a' h
        cases h
        exact ha
      · intro b h
        cases h
    · rename_i c cs hcs
      obtain ⟨b, hb, rfl⟩ := List.mem_map.mp hr
      have hby : b ∈ ys := by
        rw [← hcs] at hb
        exact (List.mem_filter.mp hb).1
      constructor
      · intro a' h
        cases h
        exact ha
      · intro b' h
        cases h
        exact hby
  · obtain ⟨b, hb, rfl⟩ := List.mem_map.mp hr
    constructor
    · intro a h
      cases h
    · intro b' h
      cases h
      exact (List.mem_filter.mp hb).1

/-- The rows of a pair have one key. -/
theorem key_both {a : α} {b : β} (h : .both a b ∈ fullJoin f g xs ys) : f a = g b := by
  rcases List.mem_append.mp h with h | h
  · obtain ⟨c, -, h⟩ := List.mem_flatMap.mp h
    unfold matched at h
    split at h
    · simp at h
    · rename_i d ds hds
      obtain ⟨b', hb, he⟩ := List.mem_map.mp h
      cases he
      rw [← hds] at hb
      simpa [eq_comm] using (List.mem_filter.mp hb).2
  · simp at h

theorem key_matched (hy : (ys.map g).Nodup) (a : α) :
    (matched f g ys a).map (Joined.key f g) = [f a] := by
  unfold matched
  split
  · rfl
  · rename_i b bs hbs
    have hsub : ((b :: bs).map g).Nodup := by
      rw [← hbs]
      exact hy.sublist (List.filter_sublist.map g)
    have hone : bs = [] := by
      cases bs with
      | nil => rfl
      | cons c cs =>
        have hall : ∀ d ∈ b :: c :: cs, g d = f a := by
          intro d hd
          rw [← hbs] at hd
          simpa using (List.mem_filter.mp hd).2
        simp [hall b (by simp), hall c (by simp)] at hsub
    subst hone
    rfl

/-- Each key of either side is the key of one row. -/
theorem nodup_fullJoin (hx : (xs.map f).Nodup) (hy : (ys.map g).Nodup) :
    ((fullJoin f g xs ys).map (Joined.key f g)).Nodup := by
  have hleft : (xs.flatMap (matched f g ys)).map (Joined.key f g) = xs.map f := by
    clear hx
    induction xs with
    | nil => rfl
    | cons a xs ih =>
      rw [List.flatMap_cons, List.map_append, key_matched hy, ih]
      rfl
  have hright : ((ys.filter fun b => decide (g b ∉ xs.map f)).map
      (Joined.right (α := α))).map (Joined.key f g) =
      (ys.filter fun b => decide (g b ∉ xs.map f)).map g := by
    rw [List.map_map]
    rfl
  rw [fullJoin, List.map_append, hleft, hright, List.nodup_append]
  refine ⟨hx, hy.sublist (List.filter_sublist.map g), ?_⟩
  intro a ha b hb hab
  obtain ⟨c, hc, rfl⟩ := List.mem_map.mp hb
  have hno : g c ∉ xs.map f := of_decide_eq_true (List.mem_filter.mp hc).2
  exact hno (hab ▸ ha)

end Join

end Ranking
