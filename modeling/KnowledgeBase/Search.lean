import Mathlib.Data.List.Perm.Subperm
import KnowledgeBase.Table

/-! A search of a graph from a root, with a stack, that records the depth at which it
first meets a node and goes no deeper than a bound. -/

namespace Search

variable {α : Type*} [DecidableEq α]

/-- A node at the end of a path of so many edges from the root. -/
inductive Steps (next : α → List α) (root : α) : Nat → α → Prop
  | refl : Steps next root 0 root
  | tail {n : Nat} {v w : α} (h : Steps next root n v) (hw : w ∈ next v) :
      Steps next root (n + 1) w

def Within (next : α → List α) (k : Nat) (root v : α) : Prop := ∃ n ≤ k, Steps next root n v

/-- The depths recorded so far, and the stack with its top first. -/
structure State (α : Type*) where
  depths : List (α × Nat)
  frontier : List (α × Nat)

def start (root : α) : State α := { depths := [(root, 0)], frontier := [(root, 0)] }

def meet (depth : Nat) (s : State α) (c : α) : State α :=
  if (Table.get s.depths c).isSome then s
  else { depths := Table.put s.depths c depth, frontier := (c, depth) :: s.frontier }

def expand (k : Nat) (next : α → List α) (u : α) (depth : Nat) (s : State α) : State α :=
  if k ≤ depth then s else (next u).foldl (meet (depth + 1)) s

/-- The loop, as far as the fuel reaches. -/
def run (k : Nat) (next : α → List α) : Nat → State α → Option (List (α × Nat))
  | 0, _ => none
  | fuel + 1, s =>
    match s.frontier with
    | [] => some s.depths
    | (u, depth) :: rest => run k next fuel (expand k next u depth { s with frontier := rest })

section Meet

variable {depth : Nat} {s : State α} {c v : α} {n : Nat}

theorem meet_get : Table.get (meet depth s c).depths v =
    (Table.get s.depths v).or (if v = c then some depth else none) := by
  unfold meet
  split
  · rename_i hc
    by_cases hv : v = c
    · rw [if_pos hv, hv]
      obtain ⟨m, hm⟩ := Option.isSome_iff_exists.mp hc
      rw [hm, Option.some_or]
    · rw [if_neg hv, Option.or_none]
  · rename_i hc
    rw [Table.get_put]
    by_cases hv : v = c
    · have hnone : Table.get s.depths c = none := by simpa using hc
      rw [if_pos hv, if_pos hv, hv, hnone, Option.none_or]
    · rw [if_neg hv, if_neg hv, Option.or_none]

theorem mem_meet_frontier {p : α × Nat} :
    p ∈ (meet depth s c).frontier ↔
      p ∈ s.frontier ∨ p = (c, depth) ∧ Table.get s.depths c = none := by
  unfold meet
  split
  · rename_i hc
    obtain ⟨m, hm⟩ := Option.isSome_iff_exists.mp hc
    simp [hm]
  · rename_i hc
    have hnone : Table.get s.depths c = none := by simpa using hc
    simp [hnone, or_comm]

/-- The nodes still to be met and those on the stack: a bound on the steps left. -/
def left (nodes : List α) (s : State α) : Nat :=
  nodes.length - s.depths.length + s.frontier.length

theorem meet_left (depth : Nat) {nodes : List α} (hn : (s.depths.map Prod.fst).Nodup)
    (hsub : ∀ u ∈ s.depths.map Prod.fst, u ∈ nodes) (hc : c ∈ nodes) :
    left nodes (meet depth s c) = left nodes s ∧
      ((meet depth s c).depths.map Prod.fst).Nodup ∧
      ∀ u ∈ (meet depth s c).depths.map Prod.fst, u ∈ nodes := by
  unfold meet
  split
  · exact ⟨rfl, hn, hsub⟩
  · rename_i hsome
    have hfresh : c ∉ s.depths.map Prod.fst := fun hm => hsome (Table.get_isSome_iff.mpr hm)
    have hkeys : (Table.put s.depths c depth).map Prod.fst = s.depths.map Prod.fst ++ [c] := by
      rw [Table.map_fst_put, if_neg hfresh]
    have hnodup : ((Table.put s.depths c depth).map Prod.fst).Nodup := Table.nodup_put hn c depth
    have hall : ∀ u ∈ (Table.put s.depths c depth).map Prod.fst, u ∈ nodes := by
      intro u hu
      rw [hkeys, List.mem_append, List.mem_singleton] at hu
      rcases hu with hu | rfl
      · exact hsub u hu
      · exact hc
    refine ⟨?_, hnodup, hall⟩
    have hle : (Table.put s.depths c depth).length ≤ nodes.length := by
      have hsp := (List.subperm_of_subset hnodup hall).length_le
      rwa [List.length_map] at hsp
    have hlen : (Table.put s.depths c depth).length = s.depths.length + 1 := by
      have hl := congrArg List.length hkeys
      simpa using hl
    simp only [left, List.length_cons]
    omega

end Meet

/-- What holds of the search while the children of the nodes in `busy` are being met. -/
structure Inv (next : α → List α) (k : Nat) (r : α) (nodes busy : List α) (s : State α) :
    Prop where
  root : Table.get s.depths r = some 0
  path : ∀ v n, Table.get s.depths v = some n → n ≤ k ∧ Steps next r n v
  parent : ∀ v n, Table.get s.depths v = some (n + 1) →
    ∃ u, Table.get s.depths u = some n ∧ v ∈ next u
  closed : ∀ u n, Table.get s.depths u = some n → n < k → (u, n) ∉ s.frontier → u ∉ busy →
    ∀ v ∈ next u, (Table.get s.depths v).isSome = true
  frontier : ∀ p ∈ s.frontier, Table.get s.depths p.1 = some p.2
  nodup : (s.depths.map Prod.fst).Nodup
  nodes : ∀ u ∈ s.depths.map Prod.fst, u ∈ nodes

section Run

variable {next : α → List α} {k : Nat} {root u : α} {nodes : List α} {s : State α} {depth : Nat}

theorem inv_start (hroot : root ∈ nodes) : Inv next k root nodes [] (start root) := by
  have hget : ∀ v n, Table.get (start root).depths v = some n → v = root ∧ n = 0 := by
    intro v n h
    simp only [start, Table.get, Table.lookup_cons, Table.lookup_nil] at h
    by_cases hv : root = v
    · rw [if_pos hv] at h
      exact ⟨hv.symm, (Option.some.inj h).symm⟩
    · rw [if_neg hv] at h
      cases h
  have hself : Table.get (start root).depths root = some 0 := by
    simp [start, Table.get, Table.lookup_cons]
  refine ⟨hself, ?_, ?_, ?_, ?_, ?_, ?_⟩
  · intro v n h
    obtain ⟨rfl, rfl⟩ := hget v n h
    exact ⟨Nat.zero_le k, .refl⟩
  · intro v n h
    cases (hget v _ h).2
  · intro u n h _ hno
    obtain ⟨rfl, rfl⟩ := hget u n h
    exact absurd (List.mem_singleton.mpr rfl) hno
  · intro p h
    obtain rfl := List.mem_singleton.mp h
    exact hself
  · simp [start]
  · simpa [start] using hroot

/-- A node that is met keeps the depth it has, or gets that of its parent and one more. -/
theorem Inv.meet {c : α} (h : Inv next k root nodes [u] s) (hu : Table.get s.depths u = some depth)
    (hk : depth < k) (hc : c ∈ next u) (hnode : c ∈ nodes) :
    Inv next k root nodes [u] (meet (depth + 1) s c) := by
  obtain ⟨-, hnodup, hall⟩ := meet_left (depth + 1) h.nodup h.nodes hnode
  have hold : ∀ {v n}, Table.get s.depths v = some n →
      Table.get (Search.meet (depth + 1) s c).depths v = some n := by
    intro v n hv
    rw [meet_get, hv, Option.some_or]
  have hcases : ∀ {v n}, Table.get (Search.meet (depth + 1) s c).depths v = some n →
      Table.get s.depths v = some n ∨
        v = c ∧ n = depth + 1 ∧ Table.get s.depths c = none := by
    intro v n hv
    rw [meet_get] at hv
    cases hs : Table.get s.depths v with
    | some m =>
      rw [hs, Option.some_or] at hv
      exact .inl hv
    | none =>
      rw [hs, Option.none_or] at hv
      split at hv
      · rename_i hvc
        subst hvc
        exact .inr ⟨rfl, (Option.some.inj hv).symm, hs⟩
      · cases hv
  refine ⟨hold h.root, ?_, ?_, ?_, ?_, hnodup, hall⟩
  · intro v n hv
    rcases hcases hv with hv | ⟨rfl, rfl, -⟩
    · exact h.path v n hv
    · exact ⟨hk, .tail (h.path u depth hu).2 hc⟩
  · intro v n hv
    rcases hcases hv with hv | ⟨rfl, hn, -⟩
    · obtain ⟨p, hp, hvp⟩ := h.parent v n hv
      exact ⟨p, hold hp, hvp⟩
    · obtain rfl := Nat.succ.inj hn
      exact ⟨u, hold hu, hc⟩
  · intro v n hv hn hno hbusy w hw
    have hnew := hcases hv
    rw [mem_meet_frontier, not_or] at hno
    rcases hnew with hv | ⟨rfl, rfl, hnone⟩
    · obtain ⟨m, hm⟩ := Option.isSome_iff_exists.mp (h.closed v n hv hn hno.1 hbusy w hw)
      rw [hold hm]
      rfl
    · exact absurd ⟨rfl, hnone⟩ hno.2
  · intro p hp
    rcases mem_meet_frontier.mp hp with hp | ⟨rfl, hnone⟩
    · exact hold (h.frontier p hp)
    · rw [meet_get, hnone, Option.none_or, if_pos rfl]

theorem Inv.meetAll (hnodes : ∀ v ∈ next u, v ∈ nodes) (hk : depth < k) {cs : List α}
    (hcs : ∀ c ∈ cs, c ∈ next u) (h : Inv next k root nodes [u] s)
    (hu : Table.get s.depths u = some depth) :
    Inv next k root nodes [u] (cs.foldl (Search.meet (depth + 1)) s) ∧
      left nodes (cs.foldl (Search.meet (depth + 1)) s) = left nodes s ∧
      (∀ v n, Table.get s.depths v = some n →
        Table.get (cs.foldl (Search.meet (depth + 1)) s).depths v = some n) ∧
      ∀ c ∈ cs, (Table.get (cs.foldl (Search.meet (depth + 1)) s).depths c).isSome = true := by
  induction cs generalizing s with
  | nil => exact ⟨h, rfl, fun _ _ hv => hv, nofun⟩
  | cons c cs ih =>
    have hc := hcs c List.mem_cons_self
    have hkeep : ∀ v n, Table.get s.depths v = some n →
        Table.get (Search.meet (depth + 1) s c).depths v = some n := by
      intro v n hv
      rw [meet_get, hv, Option.some_or]
    obtain ⟨hinv, hleft, hold, hall⟩ := ih (fun d hd => hcs d (List.mem_cons_of_mem c hd))
      (h.meet hu hk hc (hnodes c hc)) (hkeep u depth hu)
    refine ⟨hinv, hleft.trans (meet_left (depth + 1) h.nodup h.nodes (hnodes c hc)).1,
      fun v n hv => hold v n (hkeep v n hv), ?_⟩
    intro d hd
    rcases List.mem_cons.mp hd with rfl | hd
    · have hmet : ∃ n, Table.get (Search.meet (depth + 1) s d).depths d = some n := by
        rw [meet_get, if_pos rfl]
        cases Table.get s.depths d with
        | none => exact ⟨depth + 1, rfl⟩
        | some n => exact ⟨n, rfl⟩
      obtain ⟨n, hn⟩ := hmet
      rw [List.foldl_cons, hold d n hn]
      rfl
    · exact hall d hd

/-- One turn of the loop. -/
theorem Inv.expand {rest : List (α × Nat)} (hnodes : ∀ u, ∀ v ∈ next u, v ∈ nodes)
    (h : Inv next k root nodes [] s) (hs : s.frontier = (u, depth) :: rest) :
    Inv next k root nodes [] (expand k next u depth { s with frontier := rest }) ∧
      left nodes s = left nodes (expand k next u depth { s with frontier := rest }) + 1 := by
  have hu : Table.get s.depths u = some depth := h.frontier (u, depth) (by simp [hs])
  have hpop : left nodes s = left nodes { s with frontier := rest } + 1 := by
    simp only [left, hs, List.length_cons]
    omega
  have hrest : ∀ p ∈ rest, p ∈ s.frontier := by
    intro p hp
    rw [hs]
    exact List.mem_cons_of_mem _ hp
  unfold Search.expand
  split
  · rename_i hk
    refine ⟨⟨h.root, h.path, h.parent, ?_, fun p hp => h.frontier p (hrest p hp), h.nodup,
      h.nodes⟩, hpop⟩
    intro v n hv hn hno hbusy w hw
    refine h.closed v n hv hn ?_ hbusy w hw
    rw [hs, List.mem_cons, not_or]
    refine ⟨?_, hno⟩
    rintro he
    obtain ⟨rfl, rfl⟩ := Prod.mk.inj he
    exact absurd hn (Nat.not_lt.mpr hk)
  · rename_i hk
    have hbusy : Inv next k root nodes [u] { s with frontier := rest } := by
      refine ⟨h.root, h.path, h.parent, ?_, fun p hp => h.frontier p (hrest p hp), h.nodup,
        h.nodes⟩
      intro v n hv hn hno hvu w hw
      refine h.closed v n hv hn ?_ List.not_mem_nil w hw
      rw [hs, List.mem_cons, not_or]
      refine ⟨?_, hno⟩
      rintro he
      exact hvu (List.mem_singleton.mpr (Prod.mk.inj he).1)
    obtain ⟨hinv, hleft, hold, hall⟩ := hbusy.meetAll (hnodes u) (Nat.not_le.mp hk)
      (fun _ hc => hc) hu
    refine ⟨⟨hinv.root, hinv.path, hinv.parent, ?_, hinv.frontier, hinv.nodup, hinv.nodes⟩, ?_⟩
    · intro v n hv hn hno _ w hw
      by_cases hvu : v = u
      · subst hvu
        exact hall w hw
      · exact hinv.closed v n hv hn hno (by simpa using hvu) w hw
    · rw [hpop, hleft]

/-- The search comes to an end. -/
theorem run_ends (hnodes : ∀ u, ∀ v ∈ next u, v ∈ nodes) (h : Inv next k root nodes [] s)
    {fuel : Nat} (hfuel : left nodes s < fuel) :
    ∃ depths, run k next fuel s = some depths ∧
      Inv next k root nodes [] { depths, frontier := [] } := by
  induction fuel generalizing s with
  | zero => exact absurd hfuel (Nat.not_lt_zero _)
  | succ fuel ih =>
    cases hs : s.frontier with
    | nil =>
      refine ⟨s.depths, by rw [run, hs], ?_⟩
      have he : s = { depths := s.depths, frontier := [] } := by rw [← hs]
      exact he ▸ h
    | cons p rest =>
      obtain ⟨u, depth⟩ := p
      obtain ⟨hinv, hleft⟩ := h.expand hnodes hs
      obtain ⟨depths, hrun, hfin⟩ := ih hinv (by omega)
      exact ⟨depths, by rw [run, hs]; exact hrun, hfin⟩

/-- More fuel changes nothing. -/
theorem run_mono {fuel more : Nat} {depths : List (α × Nat)} (h : run k next fuel s = some depths)
    (hle : fuel ≤ more) : run k next more s = some depths := by
  induction fuel generalizing s more with
  | zero => cases h
  | succ fuel ih =>
    obtain ⟨m, rfl⟩ : ∃ m, more = m + 1 := ⟨more - 1, by omega⟩
    cases hs : s.frontier with
    | nil =>
      rw [run, hs] at h ⊢
      exact h
    | cons p rest =>
      rw [run, hs] at h ⊢
      exact ih h (Nat.le_of_succ_le_succ hle)

end Run

section Found

variable {next : α → List α} {k : Nat} {root : α} {nodes : List α} {depths : List (α × Nat)}

/-- A node other than the root is recorded if it is a child of one recorded less deep
than the bound. -/
theorem Inv.found_iff (h : Inv next k root nodes [] { depths, frontier := [] }) {v : α} :
    (Table.get depths v).isSome = true ↔
      v = root ∨ ∃ u n, Table.get depths u = some n ∧ n < k ∧ v ∈ next u := by
  constructor
  · intro hv
    obtain ⟨n, hn⟩ := Option.isSome_iff_exists.mp hv
    cases n with
    | zero =>
      cases (h.path v 0 hn).2
      exact .inl rfl
    | succ n =>
      obtain ⟨u, hu, hvu⟩ := h.parent v n hn
      exact .inr ⟨u, n, hu, (h.path v _ hn).1, hvu⟩
  · rintro (rfl | ⟨u, n, hu, hn, hvu⟩)
    · have hroot : Table.get depths v = some 0 := h.root
      rw [hroot]
      rfl
    · exact h.closed u n hu hn List.not_mem_nil List.not_mem_nil v hvu

/-- No node is recorded that is farther than the bound. -/
theorem Inv.within (h : Inv next k root nodes [] { depths, frontier := [] }) {v : α}
    (hv : (Table.get depths v).isSome = true) : Within next k root v := by
  obtain ⟨n, hn⟩ := Option.isSome_iff_exists.mp hv
  exact ⟨n, (h.path v n hn).1, (h.path v n hn).2⟩

/-- All nodes within the bound are recorded exactly if a node that the search meets at
the bound, though it is nearer, has no children but those met elsewhere. -/
theorem Inv.exact_iff (h : Inv next k root nodes [] { depths, frontier := [] }) :
    (∀ v, (Table.get depths v).isSome = true ↔ Within next k root v) ↔
      ∀ w, Table.get depths w = some k → (∃ n < k, Steps next root n w) → ∀ v ∈ next w,
        v = root ∨ ∃ u n, Table.get depths u = some n ∧ n < k ∧ v ∈ next u := by
  constructor
  · intro hall w _ hnear v hv
    obtain ⟨n, hn, hw⟩ := hnear
    exact h.found_iff.mp ((hall v).mpr ⟨n + 1, hn, .tail hw hv⟩)
  · intro hcond v
    refine ⟨h.within, ?_⟩
    rintro ⟨n, hn, hv⟩
    induction hv with
    | refl => exact h.found_iff.mpr (.inl rfl)
    | @tail n u w hw hwv ih =>
      obtain ⟨m, hm⟩ := Option.isSome_iff_exists.mp (ih (Nat.le_of_succ_le hn))
      by_cases hmk : m < k
      · exact h.found_iff.mpr (.inr ⟨u, m, hm, hmk, hwv⟩)
      · obtain rfl : m = k := Nat.le_antisymm (h.path u m hm).1 (Nat.not_lt.mp hmk)
        exact h.found_iff.mpr (hcond u hm ⟨n, hn, hw⟩ w hwv)

end Found

end Search
