import KnowledgeBase.RankTies

/-! A list read in pages, each cut from a query of its own. Rows that tie may be put either way by
each query, so a row beside the end of a page can be on both pages or on neither. -/

namespace Ranking

variable {α κ : Type*}

/-- `LIMIT limit OFFSET offset`. -/
def page (limit offset : Nat) (out : List α) : List α := (out.drop offset).take limit

/-- The pages from the `k`-th on, until one comes back empty. -/
def walk (fetch : Nat → List α) : Nat → Nat → List α
  | 0, _ => []
  | fuel + 1, k => if (fetch k).isEmpty then [] else fetch k ++ walk fetch fuel (k + 1)

section Walk

variable {fetch : Nat → List α} {fuel n k : Nat}

theorem walk_eq (hfull : ∀ i, k ≤ i → i < k + n → fetch i ≠ []) (hend : fetch (k + n) = [])
    (hfuel : n < fuel) : walk fetch fuel k = (List.range' k n).flatMap fetch := by
  induction n generalizing fuel k with
  | zero =>
    cases fuel with
    | zero => omega
    | succ fuel =>
      rw [Nat.add_zero] at hend
      simp [walk, hend]
  | succ n ih =>
    cases fuel with
    | zero => omega
    | succ fuel =>
      have hne : fetch k ≠ [] := hfull k (by omega) (by omega)
      have hrest : walk fetch fuel (k + 1) = (List.range' (k + 1) n).flatMap fetch := by
        apply ih
        · intro i hi hlt
          exact hfull i (by omega) (by omega)
        · rw [← hend]
          congr 1
          omega
        · omega
      simp [walk, hne, hrest, List.range'_succ]

theorem one_lt_count [DecidableEq α] {a : α} {i j : Nat} (hij : i < j) (hj : j < n)
    (hi : a ∈ fetch i) (ha : a ∈ fetch j) : 1 < ((List.range n).flatMap fetch).count a := by
  induction n with
  | zero => omega
  | succ n ih =>
    rw [List.range_succ, List.flatMap_append, List.count_append]
    rcases Nat.lt_succ_iff_lt_or_eq.mp hj with hj | rfl
    · have hbefore := ih hj
      omega
    · have hbefore : 0 < ((List.range j).flatMap fetch).count a := by
        rw [List.count_pos_iff, List.mem_flatMap]
        exact ⟨i, List.mem_range.mpr hij, hi⟩
      have hlast : 0 < ([j].flatMap fetch).count a := by simpa using ha
      omega

end Walk

section Cut

variable [LinearOrder κ] {key : α → κ} {rows out out' pre post : List α} {a x : α} {b : Nat}

/-- Where the last of the rows that tie with this one stands. -/
def lastRank (key : α → κ) (rows : List α) (a : α) : Nat := rows.countP fun b => key b ≤ key a

theorem lastRank_lt_rank (rows : List α) (h : key a < key x) :
    lastRank key rows a < rank key rows x := by
  rw [rank, Nat.lt_succ_iff, lastRank]
  apply List.countP_mono_left
  intro b _ hb
  simp only [decide_eq_true_eq] at hb ⊢
  exact lt_of_le_of_lt hb h

theorem lastRank_le_length : lastRank key rows a ≤ rows.length := List.countP_le_length

theorem le_lastRank (h : Orders key rows (pre ++ x :: post)) :
    pre.length + 1 ≤ lastRank key rows x := by
  have hsorted := (List.pairwise_append.mp h.sorted).2.2
  have hpre : pre.countP (fun b => key b ≤ key x) = pre.length := by
    rw [List.countP_eq_length]
    intro b hb
    exact decide_eq_true (hsorted b hb x (by simp))
  rw [lastRank, ← h.perm.countP_eq, List.countP_append, hpre]
  simp

/-- The ties of no row reach over this place. -/
def Uncut (key : α → κ) (rows : List α) (b : Nat) : Prop :=
  ∀ a ∈ rows, rank key rows a ≤ b → lastRank key rows a ≤ b

theorem take_perm (hb : Uncut key rows b) (h : Orders key rows out) :
    (out.take b).Perm (rows.filter fun a => lastRank key rows a ≤ b) := by
  have htake : (out.take b).filter (fun a => lastRank key rows a ≤ b) = out.take b := by
    rw [List.filter_eq_self]
    intro a ha
    obtain ⟨i, hi, rfl⟩ := List.mem_take_iff_getElem.mp ha
    have hout : out = out.take i ++ out[i] :: out.drop (i + 1) := by
      rw [← List.drop_eq_getElem_cons, List.take_append_drop]
    have hrank := rank_le (hout ▸ h)
    rw [List.length_take] at hrank
    exact decide_eq_true (hb _ (h.perm.mem_iff.mp (by simp)) (by omega))
  have hdrop : (out.drop b).filter (fun a => lastRank key rows a ≤ b) = [] := by
    rw [List.filter_eq_nil_iff]
    intro a ha
    obtain ⟨i, hi, rfl⟩ := List.mem_drop_iff_getElem.mp ha
    have hout : out = out.take (b + i) ++ out[b + i] :: out.drop (b + i + 1) := by
      rw [← List.drop_eq_getElem_cons, List.take_append_drop]
    have hlast := le_lastRank (hout ▸ h)
    rw [List.length_take] at hlast
    simp only [decide_eq_true_eq]
    omega
  have hsplit : out.filter (fun a => lastRank key rows a ≤ b) = out.take b := by
    rw [← List.take_append_drop b out, List.filter_append, List.take_append_drop, htake, hdrop,
      List.append_nil]
  rw [← hsplit]
  exact h.perm.filter _

/-- Between two such places every order has the same rows. -/
theorem page_perm {limit offset : Nat} (hlo : Uncut key rows offset)
    (hhi : Uncut key rows (offset + limit)) (h : Orders key rows out) (h' : Orders key rows out') :
    (page limit offset out).Perm (page limit offset out') := by
  have hlow := (take_perm hlo h).trans (take_perm hlo h').symm
  have hhigh := (take_perm hhi h).trans (take_perm hhi h').symm
  rw [List.take_add, List.take_add] at hhigh
  exact (List.perm_append_left_iff _).mp ((hlow.append_right _).symm.trans hhigh)

/-- At a place that the ties of a row reach over, this order has two of them. -/
theorem ties_at (h : Orders key rows out) (hlo : rank key rows a ≤ b + 1)
    (hhi : b + 1 < lastRank key rows a) :
    ∃ pre x y post, out = pre ++ x :: y :: post ∧ pre.length = b ∧ key x = key y := by
  have hlen : b + 1 < out.length := by
    rw [h.perm.length_eq]
    exact lt_of_lt_of_le hhi lastRank_le_length
  have htie : ∀ i (hi : i < out.length), b ≤ i → i ≤ b + 1 → key out[i] = key a := by
    intro i hi hbi hib
    have hout : out = out.take i ++ out[i] :: out.drop (i + 1) := by
      rw [← List.drop_eq_getElem_cons, List.take_append_drop]
    have htake : (out.take i).length = i := by
      rw [List.length_take]
      omega
    apply le_antisymm
    · by_contra hlt
      have hlast := lastRank_lt_rank rows (not_le.mp hlt)
      have hrank := rank_le (hout ▸ h)
      omega
    · by_contra hlt
      have hlast := lastRank_lt_rank rows (not_le.mp hlt)
      have hrank := le_lastRank (hout ▸ h)
      omega
  refine ⟨out.take b, out[b], out[b + 1], out.drop (b + 2), ?_, ?_, ?_⟩
  · rw [← List.drop_eq_getElem_cons, ← List.drop_eq_getElem_cons, List.take_append_drop]
  · rw [List.length_take]
    omega
  · rw [htie b (by omega) le_rfl (by omega), htie (b + 1) hlen (by omega) le_rfl]

theorem Orders.swap {y : α} (h : Orders key rows (pre ++ x :: y :: post)) (hxy : key x = key y) :
    Orders key rows (pre ++ y :: x :: post) := by
  refine ⟨((List.Perm.swap x y post).append_left pre).trans h.perm, ?_⟩
  have hsorted := h.sorted
  simp only [List.pairwise_append, List.pairwise_cons, List.mem_cons] at hsorted ⊢
  obtain ⟨hpre, ⟨hx, hy, hpost⟩, hcross⟩ := hsorted
  refine ⟨hpre, ⟨?_, ?_, hpost⟩, ?_⟩
  · rintro b (rfl | hb)
    · exact hxy.ge
    · exact hy b hb
  · intro b hb
    exact hx b (.inr hb)
  · rintro b hb c (rfl | rfl | hc)
    · exact hcross b hb c (.inr (.inl rfl))
    · exact hcross b hb c (.inl rfl)
    · exact hcross b hb c (.inr (.inr hc))

end Cut

section Pages

variable [LinearOrder κ] {key : α → κ} {rows : List α} {outs : Nat → List α} {limit n : Nat}

/-- The last of the rows that tie stands no later than the end of the page that the first is on. -/
def TiesOnOnePage (key : α → κ) (limit : Nat) (rows : List α) : Prop :=
  ∀ a ∈ rows, lastRank key rows a ≤ ((rank key rows a - 1) / limit + 1) * limit

instance : Decidable (TiesOnOnePage key limit rows) :=
  inferInstanceAs (Decidable (∀ a ∈ rows, _))

theorem uncut_of_ties (h : TiesOnOnePage key limit rows) (k : Nat) :
    Uncut key rows (k * limit) := by
  intro a ha hrank
  have hpos : 0 < rank key rows a := Nat.succ_pos _
  have hlt : (rank key rows a - 1) / limit < k := Nat.div_lt_of_lt_mul (by
    rw [Nat.mul_comm]
    omega)
  exact (h a ha).trans (Nat.mul_le_mul_right limit hlt)

/-- The pages up to the `n`-th are the first rows of any one order. -/
theorem pages_perm (hties : TiesOnOnePage key limit rows) (h : ∀ k, Orders key rows (outs k))
    {out : List α} (hout : Orders key rows out) :
    ((List.range n).flatMap fun k => page limit (k * limit) (outs k)).Perm
      (out.take (n * limit)) := by
  induction n with
  | zero => simp
  | succ n ih =>
    have hnext : Uncut key rows (n * limit + limit) := by
      have huncut := uncut_of_ties hties (n + 1)
      rwa [Nat.succ_mul] at huncut
    have hpage := page_perm (uncut_of_ties hties n) hnext (h n) hout
    rw [List.range_succ, List.flatMap_append, Nat.succ_mul, List.take_add]
    simpa [page] using ih.append hpage

/-- How many pages are not empty. -/
def pageCount (limit total : Nat) : Nat := (total + limit - 1) / limit

theorem lt_pageCount (hlimit : 0 < limit) {total k : Nat} :
    k < pageCount limit total ↔ k * limit < total := by
  rw [pageCount, Nat.lt_div_iff_mul_lt hlimit, Nat.mul_comm]
  omega

theorem le_pageCount (hlimit : 0 < limit) (total : Nat) :
    total ≤ pageCount limit total * limit := by
  have hend := (lt_pageCount hlimit).not.mp (lt_irrefl (pageCount limit total))
  omega

theorem page_eq_nil (hlimit : 0 < limit) {out : List α} {offset : Nat} :
    page limit offset out = [] ↔ out.length ≤ offset := by
  rw [page, List.take_eq_nil_iff, List.drop_eq_nil_iff]
  omega

theorem walk_pages (hlimit : 0 < limit) (h : ∀ k, (outs k).length = rows.length) :
    walk (fun k => page limit (k * limit) (outs k)) (rows.length + 1) 0 =
      (List.range (pageCount limit rows.length)).flatMap fun k =>
        page limit (k * limit) (outs k) := by
  rw [List.range_eq_range']
  apply walk_eq
  · intro i _ hi
    rw [Nat.zero_add, lt_pageCount hlimit] at hi
    rw [ne_eq, page_eq_nil hlimit, h]
    omega
  · rw [Nat.zero_add, page_eq_nil hlimit, h]
    exact le_pageCount hlimit rows.length
  · rw [Nat.lt_succ_iff, pageCount, Nat.div_le_iff_le_mul_add_pred hlimit]
    have : rows.length ≤ limit * rows.length := Nat.le_mul_of_pos_left _ hlimit
    omega

/-- With all ties on one page the pages are the rows, however each query puts them. -/
theorem walk_perm (hties : TiesOnOnePage key limit rows) (h : ∀ k, Orders key rows (outs k)) :
    (walk (fun k => page limit (k * limit) (outs k)) (rows.length + 1) 0).Perm rows := by
  rcases Nat.eq_zero_or_pos limit with rfl | hlimit
  · have hnil : rows = [] := by
      apply List.eq_nil_iff_forall_not_mem.mpr
      intro a ha
      have hlast := hties a ha
      have hpos : 0 < lastRank key rows a := List.countP_pos_iff.mpr ⟨a, ha, by simp⟩
      omega
    subst hnil
    simp [walk, page]
  · have hlen : ∀ k, (outs k).length = rows.length := fun k => (h k).perm.length_eq
    rw [walk_pages hlimit hlen]
    have hout := orders_orderBy key rows
    have hall : (orderBy key rows).take (pageCount limit rows.length * limit) =
        orderBy key rows := by
      apply List.take_of_length_le
      rw [hout.perm.length_eq]
      exact le_pageCount hlimit rows.length
    have hpages := pages_perm (n := pageCount limit rows.length) hties h hout
    rw [hall] at hpages
    exact hpages.trans hout.perm

variable [DecidableEq α]

/-- With ties on two pages a row can be on both of them. -/
theorem exists_twice (hlimit : 0 < limit) (hties : ¬ TiesOnOnePage key limit rows) :
    ∃ outs : Nat → List α, (∀ k, Orders key rows (outs k)) ∧ ∃ a ∈ rows,
      1 < (walk (fun k => page limit (k * limit) (outs k)) (rows.length + 1) 0).count a := by
  simp only [TiesOnOnePage, not_forall, not_le] at hties
  obtain ⟨a, ha, hlast⟩ := hties
  set k := (rank key rows a - 1) / limit with hk
  have hfirst : rank key rows a ≤ (k + 1) * limit := by
    have := Nat.lt_mul_div_succ (rank key rows a - 1) hlimit
    rw [← hk, Nat.mul_comm] at this
    omega
  obtain ⟨b, hb⟩ : ∃ b, (k + 1) * limit = b + 1 :=
    Nat.exists_eq_succ_of_ne_zero (Nat.mul_pos (Nat.succ_pos k) hlimit).ne'
  have ho := orders_orderBy key rows
  obtain ⟨pre, x, y, post, hout, hpre, hxy⟩ := ties_at ho (hb ▸ hfirst) (hb ▸ hlast)
  rw [hout] at ho
  have hlen : (pre ++ x :: y :: post).length = rows.length := ho.perm.length_eq
  have hlen' : (pre ++ y :: x :: post).length = rows.length := (ho.swap hxy).perm.length_eq
  -- the next page is cut from an order that has the two the other way
  let outs := fun i => if i = k + 1 then pre ++ y :: x :: post else pre ++ x :: y :: post
  have houts : ∀ i, Orders key rows (outs i) := by
    intro i
    simp only [outs]
    split
    · exact ho.swap hxy
    · exact ho
  have hsucc : (k + 1) * limit = k * limit + limit := Nat.succ_mul k limit
  have hmem : x ∈ page limit (k * limit) (outs k) := by
    have hat : (pre ++ x :: y :: post)[k * limit + (b - k * limit)]? = some x := by
      rw [show k * limit + (b - k * limit) = pre.length by omega]
      simp
    simp only [outs, Nat.ne_of_lt (Nat.lt_succ_self k), if_false]
    apply List.mem_of_getElem? (i := b - k * limit)
    rw [page, List.getElem?_take_of_lt (by omega), List.getElem?_drop, hat]
  have hmem' : x ∈ page limit ((k + 1) * limit) (outs (k + 1)) := by
    have hat : (pre ++ y :: x :: post)[(k + 1) * limit + 0]? = some x := by
      rw [show (k + 1) * limit + 0 = pre.length + 1 by omega]
      simp
    simp only [outs, if_true]
    apply List.mem_of_getElem? (i := 0)
    rw [page, List.getElem?_take_of_lt hlimit, List.getElem?_drop, hat]
  refine ⟨outs, houts, x, ho.perm.mem_iff.mp (by simp), ?_⟩
  rw [walk_pages hlimit fun i => (houts i).perm.length_eq]
  have hpages : k + 1 < pageCount limit rows.length := by
    rw [lt_pageCount hlimit, ← hlen]
    simp only [List.length_append, List.length_cons]
    omega
  exact one_lt_count (Nat.lt_succ_self k) hpages hmem hmem'

end Pages

end Ranking
