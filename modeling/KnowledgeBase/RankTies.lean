import Mathlib
import KnowledgeBase.Ranking
import KnowledgeBase.Table

/-! Rows that tie on the key of an order. A database may put them either way, so what is numbered
and cut after such an order need not depend on the rows alone. -/

namespace Ranking

variable {α β κ ι : Type*}

section Orders

variable [LinearOrder κ] {key : α → κ} {rows out : List α} {n : Nat} {a : α}

/-- An order of the rows that `ORDER BY key` allows. -/
structure Orders (key : α → κ) (rows out : List α) : Prop where
  perm : out.Perm rows
  sorted : out.Pairwise fun a b => key a ≤ key b

theorem orders_orderBy (key : α → κ) (rows : List α) : Orders key rows (orderBy key rows) :=
  ⟨orderBy_perm key rows, orderBy_pairwise key rows⟩

/-- `row_number()` up to a limit. -/
def cut (n : Nat) (out : List α) : List (α × Nat) := (out.zipIdx 1).take n

/-- `rank()`: where the first of the rows that tie with this one stands. -/
def rank (key : α → κ) (rows : List α) (a : α) : Nat := rows.countP (fun b => key b < key a) + 1

/-- The rows that may be among the first `n`, each at its best. -/
def ranked (key : α → κ) (n : Nat) (rows : List α) : List (α × Nat) :=
  (rows.map fun a => (a, rank key rows a)).filter fun p => p.2 ≤ n

def Tied (key : α → κ) (rows : List α) (a : α) : Prop := ∃ b ∈ rows, b ≠ a ∧ key b = key a

theorem mem_cut {i : Nat} : (a, i) ∈ cut n out ↔
    i ≤ n ∧ ∃ pre post, out = pre ++ a :: post ∧ i = pre.length + 1 := by
  rw [cut, List.mem_take_iff_getElem]
  constructor
  · rintro ⟨j, hj, he⟩
    rw [List.getElem_zipIdx, Prod.mk.injEq] at he
    obtain ⟨rfl, rfl⟩ := he
    rw [List.length_zipIdx] at hj
    refine ⟨by omega, out.take j, out.drop (j + 1), ?_, ?_⟩
    · rw [← List.drop_eq_getElem_cons, List.take_append_drop]
    · rw [List.length_take]
      omega
  · rintro ⟨hi, pre, post, rfl, rfl⟩
    refine ⟨pre.length, ?_, ?_⟩
    · simp only [List.length_zipIdx, List.length_append, List.length_cons]
      omega
    · simp [Nat.add_comm]

theorem rank_eq_count {pre post : List α} (h : Orders key rows (pre ++ a :: post)) :
    rank key rows a = pre.countP (fun b => key b < key a) + 1 := by
  have hpost : (a :: post).countP (fun b => key b < key a) = 0 := by
    have hsorted := (List.pairwise_append.mp h.sorted).2.1
    rw [List.countP_eq_zero]
    intro b hb
    have hle : key a ≤ key b := by
      rcases List.mem_cons.mp hb with rfl | hb
      · exact le_refl _
      · exact (List.pairwise_cons.mp hsorted).1 b hb
    simpa using hle
  rw [rank, ← h.perm.countP_eq, List.countP_append, hpost, Nat.add_zero]

theorem rank_le {pre post : List α} (h : Orders key rows (pre ++ a :: post)) :
    rank key rows a ≤ pre.length + 1 := by
  rw [rank_eq_count h]
  have := List.countP_le_length (p := fun b => decide (key b < key a)) (l := pre)
  omega

/-- The first of its ties stands at its rank, and only it. -/
theorem rank_eq_iff {pre post : List α} (h : Orders key rows (pre ++ a :: post)) :
    rank key rows a = pre.length + 1 ↔ ∀ b ∈ pre, key b ≠ key a := by
  have hsorted := (List.pairwise_append.mp h.sorted).2.2
  rw [rank_eq_count h, Nat.add_right_cancel_iff, List.countP_eq_length]
  constructor
  · intro hall b hb
    exact (of_decide_eq_true (hall b hb)).ne
  · intro hall b hb
    exact decide_eq_true (lt_of_le_of_ne (hsorted b hb a (by simp)) (hall b hb))

theorem rank_eq_of_not_tied {pre post : List α} (h : Orders key rows (pre ++ a :: post))
    (hnd : rows.Nodup) (ht : ¬ Tied key rows a) : rank key rows a = pre.length + 1 := by
  rw [rank_eq_iff h]
  intro b hb hkey
  apply ht
  refine ⟨b, h.perm.mem_iff.mp (by simp [hb]), ?_, hkey⟩
  rintro rfl
  have hout := h.perm.nodup_iff.mpr hnd
  exact (List.nodup_append.mp hout).2.2 b hb b (by simp) rfl

theorem mem_after {pre post : List α} {b : α} (hnd : (pre ++ a :: post).Nodup)
    (h : [a, b].Sublist (pre ++ a :: post)) : b ∈ post := by
  have hpre : a ∉ pre := fun ha => (List.nodup_append.mp hnd).2.2 a ha a (by simp) rfl
  obtain ⟨front, back, he, hfront, hback⟩ := List.sublist_append_iff.mp h
  cases front with
  | nil =>
    rw [List.nil_append] at he
    rw [← he, List.cons_sublist_cons, List.singleton_sublist] at hback
    exact hback
  | cons c front =>
    obtain ⟨rfl, -⟩ := List.cons.inj he
    exact absurd (hfront.subset (by simp)) hpre

theorem mem_before {pre post : List α} {b : α} (hnd : (pre ++ a :: post).Nodup)
    (h : [b, a].Sublist (pre ++ a :: post)) : b ∈ pre := by
  have hpost : a ∉ post := (List.nodup_cons.mp (List.nodup_append.mp hnd).2.1).1
  obtain ⟨front, back, he, hfront, hback⟩ := List.sublist_append_iff.mp h
  cases front with
  | nil =>
    rw [List.nil_append] at he
    rw [← he] at hback
    exfalso
    apply hpost
    rcases List.sublist_cons_iff.mp hback with hback | ⟨rest, hrest, hback⟩
    · exact hback.subset (by simp)
    · obtain ⟨-, rfl⟩ := List.cons.inj hrest
      exact hback.subset (by simp)
  | cons c front =>
    obtain ⟨rfl, -⟩ := List.cons.inj he
    exact hfront.subset (by simp)

variable {rest pre post : List α}

/-- A row that lies before its ties is put before them. -/
theorem rank_of_first (hnd : (a :: rest).Nodup) (h : orderBy key (a :: rest) = pre ++ a :: post) :
    rank key (a :: rest) a = pre.length + 1 := by
  have ho := orders_orderBy key (a :: rest)
  have hout := ho.perm.nodup_iff.mpr hnd
  rw [h] at ho hout
  rw [rank_eq_iff ho]
  intro b hb hkey
  have hne : b ≠ a := (List.nodup_append.mp hout).2.2 b hb a (by simp)
  have hmem : b ∈ rest := by
    have := ho.perm.mem_iff.mp (List.mem_append_left _ hb)
    exact (List.mem_cons.mp this).resolve_left hne
  have hsub : [a, b].Sublist (orderBy key (a :: rest)) := by
    apply List.sublist_insertionSort
    · simp [hkey]
    · exact (List.singleton_sublist.mpr hmem).cons₂ a
  rw [h] at hsub
  have hafter := mem_after hout hsub
  exact (List.nodup_append.mp hout).2.2 b hb b (by simp [hafter]) rfl

/-- A row that lies after its ties is put after them. -/
theorem rank_of_last (hnd : (rest ++ [a]).Nodup) (ht : Tied key (rest ++ [a]) a)
    (h : orderBy key (rest ++ [a]) = pre ++ a :: post) :
    rank key (rest ++ [a]) a < pre.length + 1 := by
  have ho := orders_orderBy key (rest ++ [a])
  have hout := ho.perm.nodup_iff.mpr hnd
  rw [h] at ho hout
  apply lt_of_le_of_ne (rank_le ho)
  rw [ne_eq, rank_eq_iff ho]
  intro hall
  obtain ⟨b, hb, hne, hkey⟩ := ht
  have hmem : b ∈ rest := by simpa [hne] using hb
  have hsub : [b, a].Sublist (orderBy key (rest ++ [a])) := by
    apply List.sublist_insertionSort
    · simp [hkey]
    · exact (List.singleton_sublist.mpr hmem).append (List.Sublist.refl [a])
  rw [h] at hsub
  exact hall b (mem_before hout hsub) hkey

end Orders

section Lookup

/-! The rows found under their own key, as a join does. -/

variable [LinearOrder κ] [DecidableEq ι] {key : α → κ} {idOf : α → ι} {rows out : List α} {n : Nat}
  {x : ι}

/-- The row of an id is among the first `n` or not, or stands here or there, as its ties fall. -/
def Contested (key : α → κ) (idOf : α → ι) (n : Nat) (rows : List α) (x : ι) : Prop :=
  ∃ a ∈ rows, idOf a = x ∧ rank key rows a ≤ n ∧ Tied key rows a

instance [DecidableEq α] (a : α) : Decidable (Tied key rows a) :=
  inferInstanceAs (Decidable (∃ b ∈ rows, b ≠ a ∧ key b = key a))

instance [DecidableEq α] : Decidable (Contested key idOf n rows x) :=
  inferInstanceAs (Decidable (∃ a ∈ rows, idOf a = x ∧ rank key rows a ≤ n ∧ Tied key rows a))

def numberOf (idOf : α → ι) (numbered : List (α × Nat)) (x : ι) : Option (α × Nat) :=
  Table.lookup (fun p => idOf p.1) numbered x

theorem numberOf_id {numbered : List (α × Nat)} {p : α × Nat}
    (h : numberOf idOf numbered x = some p) : idOf p.1 = x := by
  rw [numberOf] at h
  have hkey := Table.key_of_lookup h
  exact hkey

theorem nodup_cut (hnd : (rows.map idOf).Nodup) (ho : Orders key rows out) :
    ((cut n out).map fun p => idOf p.1).Nodup := by
  have hfst : (cut n out).map (fun p => idOf p.1) = (out.take n).map idOf := by
    have hcomp : (cut n out).map (fun p => idOf p.1) = ((cut n out).map Prod.fst).map idOf := by
      rw [List.map_map]
      rfl
    rw [hcomp, cut, List.map_take, List.zipIdx_map_fst]
  rw [hfst]
  exact ((ho.perm.map idOf).nodup_iff.mpr hnd).sublist ((List.take_sublist n out).map idOf)

theorem nodup_ranked (hnd : (rows.map idOf).Nodup) :
    ((ranked key n rows).map fun p => idOf p.1).Nodup := by
  have hsub : ((ranked key n rows).map fun p => idOf p.1).Sublist
      ((rows.map fun a => (a, rank key rows a)).map fun p => idOf p.1) :=
    List.filter_sublist.map _
  rw [List.map_map] at hsub
  exact hnd.sublist hsub

theorem numberOf_cut (hnd : (rows.map idOf).Nodup) (ho : Orders key rows out) {a : α} {i : Nat} :
    numberOf idOf (cut n out) x = some (a, i) ↔
      idOf a = x ∧ i ≤ n ∧ ∃ pre post, out = pre ++ a :: post ∧ i = pre.length + 1 := by
  rw [numberOf, Table.lookup_eq_some_iff (nodup_cut hnd ho), mem_cut]
  exact and_comm

theorem numberOf_ranked (hnd : (rows.map idOf).Nodup) {a : α} {i : Nat} :
    numberOf idOf (ranked key n rows) x = some (a, i) ↔
      a ∈ rows ∧ idOf a = x ∧ rank key rows a = i ∧ i ≤ n := by
  rw [numberOf, Table.lookup_eq_some_iff (nodup_ranked hnd), ranked, List.mem_filter,
    List.mem_map]
  simp only [Prod.mk.injEq, decide_eq_true_eq]
  constructor
  · rintro ⟨⟨⟨b, hb, rfl, rfl⟩, hi⟩, hid⟩
    exact ⟨hb, hid, rfl, hi⟩
  · rintro ⟨ha, hid, rfl, hi⟩
    exact ⟨⟨⟨a, ha, rfl, rfl⟩, hi⟩, hid⟩

/-- However the ties fall, no row stands before its best place. -/
theorem numberOf_le (hnd : (rows.map idOf).Nodup) (ho : Orders key rows out) {a : α} {i : Nat}
    (h : numberOf idOf (cut n out) x = some (a, i)) :
    ∃ k, k ≤ i ∧ numberOf idOf (ranked key n rows) x = some (a, k) := by
  obtain ⟨hid, hi, pre, post, rfl, rfl⟩ := (numberOf_cut hnd ho).mp h
  have hle := rank_le ho
  have hmem : a ∈ rows := ho.perm.mem_iff.mp (by simp)
  exact ⟨_, hle, (numberOf_ranked hnd).mpr ⟨hmem, hid, rfl, hle.trans hi⟩⟩

theorem numberOf_eq (hnd : (rows.map idOf).Nodup) (ho : Orders key rows out)
    (hx : ¬ Contested key idOf n rows x) :
    numberOf idOf (cut n out) x = numberOf idOf (ranked key n rows) x := by
  cases hcut : numberOf idOf (cut n out) x with
  | some p =>
    obtain ⟨a, i⟩ := p
    obtain ⟨hid, hi, pre, post, rfl, rfl⟩ := (numberOf_cut hnd ho).mp hcut
    have hmem : a ∈ rows := ho.perm.mem_iff.mp (by simp)
    have hrank := rank_eq_of_not_tied ho hnd.of_map fun ht =>
      hx ⟨a, hmem, hid, (rank_le ho).trans hi, ht⟩
    exact ((numberOf_ranked hnd).mpr ⟨hmem, hid, hrank, hi⟩).symm
  | none =>
    cases hranked : numberOf idOf (ranked key n rows) x with
    | none => rfl
    | some p =>
      obtain ⟨a, i⟩ := p
      obtain ⟨hmem, hid, rfl, hi⟩ := (numberOf_ranked hnd).mp hranked
      obtain ⟨pre, post, rfl⟩ := List.append_of_mem (ho.perm.mem_iff.mpr hmem)
      have hrank := rank_eq_of_not_tied ho hnd.of_map fun ht => hx ⟨a, hmem, hid, hi, ht⟩
      have hsome := (numberOf_cut hnd ho).mpr ⟨hid, hrank ▸ hi, pre, post, rfl, rfl⟩
      rw [hcut] at hsome
      cases hsome

theorem not_contested_of_absent (h : ∀ a ∈ rows, idOf a ≠ x) : ¬ Contested key idOf n rows x := by
  rintro ⟨a, ha, hid, -⟩
  exact h a ha hid

theorem rank_congr {rows' : List α} (h : rows'.Perm rows) (a : α) :
    rank key rows' a = rank key rows a := by
  rw [rank, rank, h.countP_eq]

theorem tied_congr {rows' : List α} (h : rows'.Perm rows) {a : α} :
    Tied key rows' a ↔ Tied key rows a := by
  simp only [Tied, h.mem_iff]

/-- Where the row of an id lies before its ties, it has its best place. -/
theorem numberOf_first (hnd : (rows.map idOf).Nodup) {a : α} {rest : List α}
    (h : (a :: rest).Perm rows) (hid : idOf a = x) :
    numberOf idOf (cut n (orderBy key (a :: rest))) x = numberOf idOf (ranked key n rows) x := by
  have ho := orders_orderBy key (a :: rest)
  have hnd' : ((a :: rest).map idOf).Nodup := (h.map idOf).nodup_iff.mpr hnd
  have hmem : a ∈ rows := h.mem_iff.mp (by simp)
  obtain ⟨pre, post, hout⟩ := List.append_of_mem (ho.perm.mem_iff.mpr (List.mem_cons_self (l := rest)))
  have hrank : rank key rows a = pre.length + 1 := by
    rw [← rank_congr h]
    exact rank_of_first hnd'.of_map hout
  by_cases hn : pre.length + 1 ≤ n
  · have hcut : numberOf idOf (cut n (orderBy key (a :: rest))) x = some (a, pre.length + 1) :=
      (numberOf_cut hnd' ho).mpr ⟨hid, hn, pre, post, hout, rfl⟩
    rw [hcut]
    exact ((numberOf_ranked hnd).mpr ⟨hmem, hid, hrank, hn⟩).symm
  · have hone : ∀ b ∈ rows, idOf b = x → b = a := fun b hb hb' =>
      List.inj_on_of_nodup_map hnd hb hmem (hb'.trans hid.symm)
    have hranked : numberOf idOf (ranked key n rows) x = none := by
      cases hr : numberOf idOf (ranked key n rows) x with
      | none => rfl
      | some p =>
        obtain ⟨b, i⟩ := p
        obtain ⟨hb, hb', rfl, hi⟩ := (numberOf_ranked hnd).mp hr
        rw [hone b hb hb', hrank] at hi
        exact absurd hi hn
    rw [hranked]
    cases hc : numberOf idOf (cut n (orderBy key (a :: rest))) x with
    | none => rfl
    | some p =>
      obtain ⟨k, -, hk⟩ := numberOf_le hnd' ho hc
      obtain ⟨hb, hb', rfl, hi⟩ := (numberOf_ranked hnd').mp hk
      rw [hone p.1 (h.mem_iff.mp hb) hb', rank_congr h, hrank] at hi
      exact absurd hi hn

/-- Where it lies after its ties, it has not. -/
theorem numberOf_last (hnd : (rows.map idOf).Nodup) {a : α} {rest : List α}
    (h : (rest ++ [a]).Perm rows) (hid : idOf a = x) (hx : Contested key idOf n rows x) :
    (numberOf idOf (cut n (orderBy key (rest ++ [a]))) x).map Prod.snd ≠
      (numberOf idOf (ranked key n rows) x).map Prod.snd := by
  have ho := orders_orderBy key (rest ++ [a])
  have hnd' : ((rest ++ [a]).map idOf).Nodup := (h.map idOf).nodup_iff.mpr hnd
  have hmem : a ∈ rows := h.mem_iff.mp (by simp)
  obtain ⟨b, hb, hb', hrank, ht⟩ := hx
  obtain rfl : b = a := List.inj_on_of_nodup_map hnd hb hmem (hb'.trans hid.symm)
  rw [(numberOf_ranked hnd).mpr ⟨hmem, hid, rfl, hrank⟩]
  intro he
  obtain ⟨p, hp, hrank'⟩ := Option.map_eq_some_iff.mp he
  obtain ⟨c, i⟩ := p
  obtain ⟨hc, -, pre, post, hout, rfl⟩ := (numberOf_cut hnd' ho).mp hp
  have hmem' : c ∈ rest ++ [b] := ho.perm.mem_iff.mp (by simp [hout])
  obtain rfl : c = b := List.inj_on_of_nodup_map hnd (h.mem_iff.mp hmem') hmem (hc.trans hid.symm)
  have hlt := rank_of_last hnd'.of_map ((tied_congr h).mpr ht) hout
  rw [rank_congr h] at hlt
  simp only [Option.map_some, Option.some.injEq] at hrank'
  omega

variable {o : Option α} {rest : List α}

theorem numberOf_front (hnd : (rows.map idOf).Nodup) (h : (o.toList ++ rest).Perm rows)
    (ho : ∀ a ∈ o, idOf a = x) (hrest : ∀ a ∈ rest, idOf a ≠ x) :
    numberOf idOf (cut n (orderBy key (o.toList ++ rest))) x =
      numberOf idOf (ranked key n rows) x := by
  cases o with
  | none =>
    have habsent : ∀ a ∈ rows, idOf a ≠ x := fun a ha => hrest a (by simpa using h.mem_iff.mpr ha)
    have horder := orders_orderBy key rest
    exact numberOf_eq hnd ⟨horder.perm.trans h, horder.sorted⟩ (not_contested_of_absent habsent)
  | some a => exact numberOf_first hnd h (ho a rfl)

theorem numberOf_back (hnd : (rows.map idOf).Nodup) (h : (rest ++ o.toList).Perm rows)
    (ho : ∀ a ∈ o, idOf a = x) (hrest : ∀ a ∈ rest, idOf a ≠ x)
    (hx : Contested key idOf n rows x) :
    (numberOf idOf (cut n (orderBy key (rest ++ o.toList))) x).map Prod.snd ≠
      (numberOf idOf (ranked key n rows) x).map Prod.snd := by
  cases o with
  | none =>
    have habsent : ∀ a ∈ rows, idOf a ≠ x := fun a ha => hrest a (by simpa using h.mem_iff.mpr ha)
    exact absurd hx (not_contested_of_absent habsent)
  | some a => exact numberOf_last hnd h (ho a rfl) hx

end Lookup

section Distinct

variable [LinearOrder κ] {key : α → κ} {rows sure : List α} {n : Nat} {a : α}

/-- No two rows have one key. -/
def Distinct (key : α → κ) (rows : List α) : Prop := (rows.map key).Nodup

theorem Distinct.not_tied (h : Distinct key rows) (ha : a ∈ rows) : ¬ Tied key rows a := by
  rintro ⟨b, hb, hne, hkey⟩
  exact hne (List.inj_on_of_nodup_map h hb ha hkey)

theorem mem_take_orderBy (h : Distinct key rows) :
    a ∈ (orderBy key rows).take n ↔ a ∈ rows ∧ rank key rows a ≤ n := by
  have ho := orders_orderBy key rows
  have hcut : a ∈ (orderBy key rows).take n ↔ ∃ i, (a, i) ∈ cut n (orderBy key rows) := by
    rw [← map_fst_top, List.mem_map]
    simp only [Prod.exists, exists_and_right, exists_eq_right]
    rfl
  rw [hcut]
  constructor
  · rintro ⟨i, hi⟩
    obtain ⟨hin, pre, post, hout, rfl⟩ := mem_cut.mp hi
    have hmem : a ∈ rows := ho.perm.mem_iff.mp (by simp [hout])
    rw [hout] at ho
    exact ⟨hmem, (rank_le ho).trans hin⟩
  · rintro ⟨hmem, hrank⟩
    obtain ⟨pre, post, hout⟩ := List.append_of_mem (ho.perm.mem_iff.mpr hmem)
    have ho' := ho
    rw [hout] at ho'
    have heq := rank_eq_of_not_tied ho' h.of_map (h.not_tied hmem)
    exact ⟨_, mem_cut.mpr ⟨heq ▸ hrank, pre, post, hout, rfl⟩⟩

/-- What comes after `n` rows that are sure leaves the first `n` alone. -/
theorem take_orderBy_eq (h : Distinct key rows) (hsure : Distinct key sure)
    (hsub : ∀ a ∈ sure, a ∈ rows)
    (hout : ∀ a ∈ rows, a ∉ sure → n ≤ sure.countP (fun b => key b < key a)) :
    (orderBy key rows).take n = (orderBy key sure).take n := by
  have hcount : ∀ c, sure.countP (fun b => key b < key c) ≤ rows.countP (fun b => key b < key c) := by
    intro c
    exact (List.subperm_of_subset hsure.of_map hsub).countP_le _
  have hmem : ∀ a, a ∈ (orderBy key rows).take n ↔ a ∈ (orderBy key sure).take n := by
    intro a
    rw [mem_take_orderBy h, mem_take_orderBy hsure]
    constructor
    · rintro ⟨ha, hrank⟩
      have hle := hcount a
      simp only [rank] at hrank ⊢
      refine ⟨?_, by omega⟩
      by_contra hnot
      have := hout a ha hnot
      omega
    · rintro ⟨ha, hrank⟩
      refine ⟨hsub a ha, ?_⟩
      have hle : rows.countP (fun b => key b < key a) ≤ sure.countP (fun b => key b < key a) := by
        simp only [List.countP_eq_length_filter]
        apply List.Subperm.length_le
        apply List.subperm_of_subset (h.of_map.filter _)
        intro c hc
        obtain ⟨hc, hlt⟩ := List.mem_filter.mp hc
        refine List.mem_filter.mpr ⟨?_, hlt⟩
        by_contra hnot
        -- a row that is not sure before this one puts `n` sure ones before it
        have hmany := hout c hc hnot
        have hmono : sure.countP (fun b => key b < key c) ≤ sure.countP (fun b => key b < key a) :=
          List.countP_mono_left fun b _ hb =>
            decide_eq_true ((of_decide_eq_true hb).trans (of_decide_eq_true hlt))
        simp only [rank] at hrank
        omega
      simp only [rank] at hrank ⊢
      omega
  have hperm : ((orderBy key rows).take n).Perm ((orderBy key sure).take n) := by
    rw [List.perm_ext_iff_of_nodup]
    · exact hmem
    · exact ((orderBy_perm key rows).nodup_iff.mpr h.of_map).sublist (List.take_sublist _ _)
    · exact ((orderBy_perm key sure).nodup_iff.mpr hsure.of_map).sublist (List.take_sublist _ _)
  refine hperm.eq_of_pairwise ?_ ((orderBy_pairwise key rows).sublist (List.take_sublist _ _))
    ((orderBy_pairwise key sure).sublist (List.take_sublist _ _))
  intro a b ha hb hab hba
  have hb' := ((mem_take_orderBy h).mp ((hmem b).mpr hb)).1
  exact List.inj_on_of_nodup_map h ((mem_take_orderBy h).mp ha).1 hb' (le_antisymm hab hba)

/-- Before a row that is left out stand `n` rows that are not. -/
theorem take_orderBy_before (h : Distinct key rows) (ha : a ∈ rows)
    (hnot : a ∉ (orderBy key rows).take n) :
    ((orderBy key rows).take n).length = n ∧ ∀ b ∈ (orderBy key rows).take n, key b < key a := by
  have hperm := orderBy_perm key rows
  obtain ⟨pre, post, hout⟩ := List.append_of_mem (hperm.mem_iff.mpr ha)
  have hlen : n ≤ pre.length := by
    by_contra hlt
    apply hnot
    rw [hout, List.take_append, List.mem_append]
    right
    obtain ⟨k, hk⟩ : ∃ k, n - pre.length = k + 1 := ⟨n - pre.length - 1, by omega⟩
    simp [hk]
  have hsorted := orderBy_pairwise key rows
  have hnd := hperm.nodup_iff.mpr h.of_map
  rw [hout] at hsorted hnd
  rw [hout, List.take_append_of_le_length hlen]
  constructor
  · rw [List.length_take]
    omega
  · intro b hb
    have hpre := List.mem_of_mem_take hb
    apply lt_of_le_of_ne ((List.pairwise_append.mp hsorted).2.2 b hpre a (by simp))
    intro hkey
    have hrow : b ∈ rows := hperm.mem_iff.mp (by simp [hout, hpre])
    exact (List.nodup_append.mp hnd).2.2 b hpre a (by simp)
      (List.inj_on_of_nodup_map h hrow ha hkey)

end Distinct

section Join

variable [DecidableEq ι] {f : α → ι} {g : β → ι} {xs : List α} {ys : List β}

theorem mem_matched {r : Joined α β} {a : α} : r ∈ matched f g ys a ↔
    (r = .left a ∧ ∀ b ∈ ys, g b ≠ f a) ∨ ∃ b ∈ ys, g b = f a ∧ r = .both a b := by
  have hfilter : ∀ b, b ∈ ys.filter (fun b => g b = f a) ↔ b ∈ ys ∧ g b = f a := by simp
  unfold matched
  split
  · rename_i hnil
    have hnone : ∀ b ∈ ys, g b ≠ f a := fun b hb hk => by
      have := (hfilter b).mpr ⟨hb, hk⟩
      rw [hnil] at this
      cases this
    constructor
    · intro hr
      exact .inl ⟨List.mem_singleton.mp hr, hnone⟩
    · rintro (⟨rfl, -⟩ | ⟨b, hb, hk, -⟩)
      · simp
      · exact absurd hk (hnone b hb)
  · rename_i c cs hcs
    rw [← hcs, List.mem_map]
    constructor
    · rintro ⟨b, hb, rfl⟩
      obtain ⟨hb, hk⟩ := (hfilter b).mp hb
      exact .inr ⟨b, hb, hk, rfl⟩
    · rintro (⟨-, hnone⟩ | ⟨b, hb, hk, rfl⟩)
      · obtain ⟨hc, hk⟩ := (hfilter c).mp (hcs ▸ List.mem_cons_self)
        exact absurd hk (hnone c hc)
      · exact ⟨b, (hfilter b).mpr ⟨hb, hk⟩, rfl⟩

theorem mem_fullJoin_cases {j : Joined α β} : j ∈ fullJoin f g xs ys ↔
    (∃ a ∈ xs, j = .left a ∧ ∀ b ∈ ys, g b ≠ f a) ∨
    (∃ a ∈ xs, ∃ b ∈ ys, g b = f a ∧ j = .both a b) ∨
    ∃ b ∈ ys, (∀ a ∈ xs, f a ≠ g b) ∧ j = .right b := by
  simp only [fullJoin, List.mem_append, List.mem_flatMap, mem_matched, List.mem_map,
    List.mem_filter, decide_eq_true_eq, not_exists, not_and]
  constructor
  · rintro (⟨a, ha, ⟨rfl, hnone⟩ | ⟨b, hb, hk, rfl⟩⟩ | ⟨b, ⟨hb, hnone⟩, rfl⟩)
    · exact .inl ⟨a, ha, rfl, hnone⟩
    · exact .inr (.inl ⟨a, ha, b, hb, hk, rfl⟩)
    · exact .inr (.inr ⟨b, hb, hnone, rfl⟩)
  · rintro (⟨a, ha, rfl, hnone⟩ | ⟨a, ha, b, hb, hk, rfl⟩ | ⟨b, hb, hnone, rfl⟩)
    · exact .inl ⟨a, ha, .inl ⟨rfl, hnone⟩⟩
    · exact .inl ⟨a, ha, .inr ⟨b, hb, hk, rfl⟩⟩
    · exact .inr ⟨b, ⟨hb, hnone⟩, rfl⟩

/-- With one row to a key on each side, a row of the join is what the two sides have under its
key. -/
theorem mem_fullJoin_iff (hx : (xs.map f).Nodup) (hy : (ys.map g).Nodup) {j : Joined α β} :
    j ∈ fullJoin f g xs ys ↔ j.left? = Table.lookup f xs (j.key f g) ∧
      j.right? = Table.lookup g ys (j.key f g) := by
  rw [mem_fullJoin_cases]
  cases j with
  | both a b =>
    simp only [Joined.left?, Joined.right?, Joined.key, eq_comm (a := some _),
      Table.lookup_eq_some_iff hx, Table.lookup_eq_some_iff hy, reduceCtorEq, false_and,
      and_false, exists_false, false_or, or_false, Joined.both.injEq, and_true]
    constructor
    · rintro ⟨a', ha, b', hb, hk, rfl, rfl⟩
      exact ⟨ha, hb, hk⟩
    · rintro ⟨ha, hb, hk⟩
      exact ⟨a, ha, b, hb, hk, rfl, rfl⟩
  | left a =>
    simp only [Joined.left?, Joined.right?, Joined.key, eq_comm (a := some _), eq_comm (a := none),
      Table.lookup_eq_some_iff hx, Table.lookup_eq_none_iff, reduceCtorEq, and_false,
      exists_false, or_false, Joined.left.injEq, and_true]
    constructor
    · rintro ⟨a', ha, rfl, hnone⟩
      exact ⟨ha, hnone⟩
    · rintro ⟨ha, hnone⟩
      exact ⟨a, ha, rfl, hnone⟩
  | right b =>
    simp only [Joined.left?, Joined.right?, Joined.key, eq_comm (a := some _), eq_comm (a := none),
      Table.lookup_eq_some_iff hy, Table.lookup_eq_none_iff, reduceCtorEq, and_false, false_and,
      exists_false, false_or, Joined.right.injEq, and_true]
    constructor
    · rintro ⟨b', hb, hnone, rfl⟩
      exact ⟨hnone, hb⟩
    · rintro ⟨hnone, hb⟩
      exact ⟨b, hb, hnone, rfl⟩

end Join

end Ranking
