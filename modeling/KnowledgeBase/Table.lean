import Mathlib.Data.List.Nodup

/-! Tables of rows with a key, read and written the way SQL statements do: a
lookup by key, and an update of every row that meets a condition. -/

namespace Table

variable {ρ κ : Type*} [DecidableEq κ]

def lookup (key : ρ → κ) (rows : List ρ) (k : κ) : Option ρ :=
  rows.find? (fun r => key r = k)

/-- `UPDATE rows SET f WHERE p`. -/
def update (p : ρ → Bool) (f : ρ → ρ) (rows : List ρ) : List ρ :=
  rows.map (fun r => if p r then f r else r)

theorem key_of_lookup {key : ρ → κ} {rows : List ρ} {k : κ} {r : ρ}
    (h : lookup key rows k = some r) : key r = k := by
  simpa using List.find?_some h

theorem mem_of_lookup {key : ρ → κ} {rows : List ρ} {k : κ} {r : ρ}
    (h : lookup key rows k = some r) : r ∈ rows :=
  List.mem_of_find?_eq_some h

@[simp] theorem lookup_nil (key : ρ → κ) (k : κ) : lookup key [] k = none := rfl

theorem lookup_cons (key : ρ → κ) (r : ρ) (rows : List ρ) (k : κ) :
    lookup key (r :: rows) k = if key r = k then some r else lookup key rows k := by
  by_cases h : key r = k <;> simp [lookup, h]

theorem lookup_append (key : ρ → κ) (rows more : List ρ) (k : κ) :
    lookup key (rows ++ more) k = (lookup key rows k).or (lookup key more k) := by
  simp [lookup, List.find?_append]

/-- An update that keeps the key acts on the row found under each key. -/
theorem lookup_update {key : ρ → κ} {p : ρ → Bool} {f : ρ → ρ} (hf : ∀ r, key (f r) = key r)
    (rows : List ρ) (k : κ) :
    lookup key (update p f rows) k =
      (lookup key rows k).map (fun r => if p r then f r else r) := by
  induction rows with
  | nil => rfl
  | cons r rows ih =>
    have hk : key (if p r then f r else r) = key r := by split <;> simp [hf]
    have hc : update p f (r :: rows) = (if p r then f r else r) :: update p f rows := rfl
    rw [hc, lookup_cons, lookup_cons, hk, ih]
    split <;> simp

/-- An update whose condition no row meets. -/
theorem update_absent {p : ρ → Bool} {f : ρ → ρ} {rows : List ρ} (h : ∀ r ∈ rows, p r = false) :
    update p f rows = rows := by
  rw [update, List.map_congr_left (g := id) (fun r hr => by rw [h r hr]; rfl), List.map_id]

theorem lookup_eq_none_iff {key : ρ → κ} {rows : List ρ} {k : κ} :
    lookup key rows k = none ↔ ∀ r ∈ rows, key r ≠ k := by
  simp [lookup]

theorem lookup_eq_some_iff {key : ρ → κ} {rows : List ρ} (h : (rows.map key).Nodup) {k : κ} {r : ρ} :
    lookup key rows k = some r ↔ r ∈ rows ∧ key r = k := by
  constructor
  · intro hl
    exact ⟨mem_of_lookup hl, key_of_lookup hl⟩
  · rintro ⟨hr, hk⟩
    cases hl : lookup key rows k with
    | none => exact absurd hk (lookup_eq_none_iff.mp hl r hr)
    | some r' =>
      have hkey : key r' = key r := (key_of_lookup hl).trans hk.symm
      rw [List.inj_on_of_nodup_map h (mem_of_lookup hl) hr hkey]

theorem lookup_map {σ : Type*} {key : σ → κ} (f : ρ → σ) (rows : List ρ) (k : κ) :
    lookup key (rows.map f) k = (lookup (fun r => key (f r)) rows k).map f := by
  simp [lookup, List.find?_map, Function.comp_def]

/-- What is found under a key does not depend on how the rows lie. -/
theorem lookup_perm {key : ρ → κ} {rows rows' : List ρ} (hnd : (rows.map key).Nodup)
    (h : rows'.Perm rows) (k : κ) : lookup key rows' k = lookup key rows k := by
  have hnd' := (h.map key).nodup_iff.mpr hnd
  apply Option.ext
  intro r
  rw [lookup_eq_some_iff hnd', lookup_eq_some_iff hnd, h.mem_iff]

/-- Rows made from some of the rows, under the same keys, have keys in the same order. -/
theorem map_filterMap_sublist {σ : Type*} {f : ρ → Option σ} {key : ρ → κ} {key' : σ → κ}
    {rows : List ρ} (h : ∀ r ∈ rows, ∀ s, f r = some s → key' s = key r) :
    ((rows.filterMap f).map key').Sublist (rows.map key) := by
  induction rows with
  | nil => exact List.Sublist.slnil
  | cons r rows ih =>
    have hrest := ih fun r' hr' => h r' (List.mem_cons_of_mem r hr')
    cases hf : f r with
    | none => simpa [hf] using hrest.cons (key r)
    | some s => simpa [hf, h r List.mem_cons_self s hf] using hrest

/-- A dict is the table of its pairs, in the order the keys came. -/
def get {β : Type*} (d : List (κ × β)) (k : κ) : Option β := (lookup Prod.fst d k).map Prod.snd

/-- `d[k] = v` keeps the place of a key that is there. -/
def put {β : Type*} (d : List (κ × β)) (k : κ) (v : β) : List (κ × β) :=
  if (get d k).isSome then update (fun p => p.1 = k) (fun p => (p.1, v)) d else d ++ [(k, v)]

theorem get_put {β : Type*} (d : List (κ × β)) (k k' : κ) (v : β) :
    get (put d k v) k' = if k' = k then some v else get d k' := by
  unfold put
  by_cases hk : k' = k
  · rw [if_pos hk, hk]
    split
    · rename_i hs
      obtain ⟨w, hw⟩ := Option.isSome_iff_exists.mp hs
      obtain ⟨p, hp, -⟩ := Option.map_eq_some_iff.mp hw
      rw [get, lookup_update (f := fun p => (p.1, v)) (fun _ => rfl), hp]
      simp [key_of_lookup hp]
    · rename_i hs
      have hnone : lookup Prod.fst d k = none := by simpa [get] using hs
      rw [get, lookup_append, hnone, Option.none_or, lookup_cons, if_pos rfl]
      rfl
  · rw [if_neg hk]
    split
    · rw [get, lookup_update (f := fun p => (p.1, v)) (fun _ => rfl), get, Option.map_map]
      cases hp : lookup Prod.fst d k' with
      | none => rfl
      | some p =>
        have hne : p.1 ≠ k := fun h => hk (key_of_lookup hp ▸ h)
        simp [hne]
    · have hne : ¬ k = k' := fun h => hk h.symm
      rw [get, lookup_append, lookup_cons, if_neg hne, lookup_nil, Option.or_none, get]

theorem get_isSome_iff {β : Type*} {d : List (κ × β)} {k : κ} :
    (get d k).isSome = true ↔ k ∈ d.map Prod.fst := by
  rw [get, Option.isSome_map]
  cases h : lookup Prod.fst d k with
  | none =>
    have hno := lookup_eq_none_iff.mp h
    simp only [Option.isSome_none, Bool.false_eq_true, List.mem_map, false_iff]
    rintro ⟨p, hp, he⟩
    exact hno p hp he
  | some p =>
    simp only [Option.isSome_some, true_iff]
    exact List.mem_map.mpr ⟨p, mem_of_lookup h, key_of_lookup h⟩

theorem map_fst_put {β : Type*} (d : List (κ × β)) (k : κ) (v : β) :
    (put d k v).map Prod.fst =
      if k ∈ d.map Prod.fst then d.map Prod.fst else d.map Prod.fst ++ [k] := by
  unfold put
  by_cases hk : k ∈ d.map Prod.fst
  · rw [if_pos hk, if_pos (get_isSome_iff.mpr hk), update, List.map_map]
    refine List.map_congr_left fun p _ => ?_
    rw [Function.comp_apply]
    split <;> rfl
  · rw [if_neg hk, if_neg (fun h => hk (get_isSome_iff.mp h)), List.map_append]
    rfl

theorem nodup_put {β : Type*} {d : List (κ × β)} (h : (d.map Prod.fst).Nodup) (k : κ) (v : β) :
    ((put d k v).map Prod.fst).Nodup := by
  rw [map_fst_put]
  split
  · exact h
  · rename_i hk
    rw [List.nodup_append]
    refine ⟨h, List.nodup_cons.mpr ⟨List.not_mem_nil, List.nodup_nil⟩, ?_⟩
    rintro a ha b hb rfl
    exact hk (List.mem_singleton.mp hb ▸ ha)

theorem mem_of_mem_put {β : Type*} {d : List (κ × β)} {k : κ} {v : β} {e : κ × β}
    (h : e ∈ put d k v) : e ∈ d ∨ e = (k, v) := by
  unfold put at h
  split at h
  · obtain ⟨p, hp, rfl⟩ := List.mem_map.mp h
    by_cases hk : p.1 = k <;> simp [hk, hp]
  · simpa using h

/-- In a dict a pair stands where its key leads to. -/
theorem mem_iff_get {β : Type*} {d : List (κ × β)} (h : (d.map Prod.fst).Nodup) {k : κ} {v : β} :
    (k, v) ∈ d ↔ get d k = some v := by
  constructor
  · intro hm
    cases hl : lookup Prod.fst d k with
    | none => exact absurd rfl (lookup_eq_none_iff.mp hl (k, v) hm)
    | some p =>
      have hp : p = (k, v) :=
        List.inj_on_of_nodup_map h (mem_of_lookup hl) hm (key_of_lookup hl)
      rw [get, hl, hp]
      rfl
  · intro hg
    obtain ⟨p, hp, rfl⟩ := Option.map_eq_some_iff.mp hg
    have hk : p.1 = k := key_of_lookup hp
    exact hk ▸ mem_of_lookup hp

end Table
