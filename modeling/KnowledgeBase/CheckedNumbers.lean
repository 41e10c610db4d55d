import KnowledgeBase.CheckDigits
import KnowledgeBase.Redaction

/-! What the check digits of the recognizers tell apart: a number in which one digit is wrong, or
in which two neighbours have changed places, is mostly no number of its kind. -/

namespace KnowledgeBase

namespace Recognizers

open CheckDigits (run Reversible)

section Steps

def verhoeffStep (i c d : Nat) : Nat := entry verhoeffD c (entry verhoeffP (i % 8) d)

def luhnStep (parity i c d : Nat) : Nat := (c + luhnDigit parity i d) % 10

theorem verhoeffD_lt : ∀ c < 10, ∀ x < 10, entry verhoeffD c x < 10 := by decide

theorem verhoeffP_lt : ∀ r < 8, ∀ d < 10, entry verhoeffP r d < 10 := by decide

theorem verhoeffD_row : ∀ c < 10, ∀ x < 10, ∀ y < 10,
    entry verhoeffD c x = entry verhoeffD c y → x = y := by decide +kernel

theorem verhoeffD_column : ∀ x < 10, ∀ c < 10, ∀ c' < 10,
    entry verhoeffD c x = entry verhoeffD c' x → c = c' := by decide +kernel

theorem verhoeffP_inj : ∀ r < 8, ∀ d < 10, ∀ d' < 10,
    entry verhoeffP r d = entry verhoeffP r d' → d = d' := by decide +kernel

theorem verhoeffD_assoc : ∀ c < 10, ∀ x < 10, ∀ y < 10,
    entry verhoeffD (entry verhoeffD c x) y = entry verhoeffD c (entry verhoeffD x y) := by
  decide +kernel

theorem verhoeff_neighbours : ∀ r < 8, ∀ d < 10, ∀ d' < 10,
    entry verhoeffD (entry verhoeffP r d) (entry verhoeffP ((r + 1) % 8) d') =
      entry verhoeffD (entry verhoeffP r d') (entry verhoeffP ((r + 1) % 8) d) → d = d' := by
  decide +kernel

theorem verhoeff_reversible : Reversible verhoeffStep {c | c < 10} := by
  have hr : ∀ i, i % 8 < 8 := fun i => Nat.mod_lt i (by decide)
  constructor
  · intro i c hc d hd
    exact verhoeffD_lt c hc _ (verhoeffP_lt _ (hr i) d hd)
  · intro i c hc c' hc' d hd he
    exact verhoeffD_column _ (verhoeffP_lt _ (hr i) d hd) c hc c' hc' he
  · intro i c hc d hd d' hd' he
    have hp := verhoeffD_row c hc _ (verhoeffP_lt _ (hr i) d hd) _ (verhoeffP_lt _ (hr i) d' hd') he
    exact verhoeffP_inj _ (hr i) d hd d' hd' hp

theorem verhoeff_run_swap {i c d d' : Nat} (hc : c < 10) (hd : d < 10) (hd' : d' < 10)
    (he : run verhoeffStep i c [d, d'] = run verhoeffStep i c [d', d]) : d = d' := by
  have hr : i % 8 < 8 := Nat.mod_lt i (by decide)
  have hr' : (i + 1) % 8 < 8 := Nat.mod_lt _ (by decide)
  have hnext : (i + 1) % 8 = (i % 8 + 1) % 8 := by omega
  have hlt := verhoeffP_lt _ hr
  have hlt' := verhoeffP_lt _ hr'
  simp only [run, verhoeffStep] at he
  rw [verhoeffD_assoc c hc _ (hlt d hd) _ (hlt' d' hd'),
    verhoeffD_assoc c hc _ (hlt d' hd') _ (hlt' d hd)] at he
  have hpair := verhoeffD_row c hc _ (verhoeffD_lt _ (hlt d hd) _ (hlt' d' hd')) _
    (verhoeffD_lt _ (hlt d' hd') _ (hlt' d hd)) he
  rw [hnext] at hpair
  exact verhoeff_neighbours _ hr d hd d' hd' hpair

theorem luhn_reversible (parity : Nat) : Reversible (luhnStep parity) {c | c < 10} := by
  constructor
  · intro i c _ d _
    exact Nat.mod_lt _ (by decide)
  · intro i c hc c' hc' d _ he
    simp only [luhnStep, Set.mem_ofPred_eq] at he hc hc'
    omega
  · intro i c _ d hd d' hd' he
    simp only [luhnStep, luhnDigit] at he
    split at he
    · split at he <;> split at he <;> omega
    · omega

/-- Doubling tells the neighbours apart, but for a zero and a nine. -/
theorem luhn_run_swap {parity i c d d' : Nat} (hp : parity < 2) (hd : d < 10) (hd' : d' < 10) :
    run (luhnStep parity) i c [d, d'] = run (luhnStep parity) i c [d', d] ↔
      d = d' ∨ (d = 0 ∧ d' = 9) ∨ (d = 9 ∧ d' = 0) := by
  simp only [run, luhnStep, luhnDigit]
  by_cases hi : i % 2 = parity
  · have hi' : ¬ (i + 1) % 2 = parity := by omega
    simp only [hi, hi', if_true, if_false]
    split <;> split <;> omega
  · have hi' : (i + 1) % 2 = parity := by omega
    simp only [hi, hi', if_true, if_false]
    split <;> split <;> omega

end Steps

variable {u : Unicode} {pre mid post : Text} {c c' : Char}

def values (u : Unicode) (text : Text) : List Nat := (digits u text).map u.value

theorem values_append (t t' : Text) : values u (t ++ t') = values u t ++ values u t' := by
  simp [values, digits]

theorem values_cons (hc : u.isDigit c = true) (t : Text) :
    values u (c :: t) = u.value c :: values u t := by
  simp [values, digits, hc]

theorem values_nil_of (h : ∀ x ∈ mid, u.isDigit x = false) : values u mid = [] := by
  simp only [values, digits, List.map_eq_nil_iff, List.filter_eq_nil_iff]
  intro x hx
  simp [h x hx]

/-- The decimal value of a character is that of a digit. -/
def Decimal (u : Unicode) : Prop := ∀ c n, u.decimal c = some n → n < 10

theorem value_lt (hu : Decimal u) (hc : u.isDigit c = true) : u.value c < 10 := by
  obtain ⟨n, hn⟩ := Option.isSome_iff_exists.mp hc
  simpa [Unicode.value, hn] using hu c n hn

theorem values_lt (hu : Decimal u) (text : Text) : ∀ d ∈ values u text, d < 10 := by
  intro d hd
  obtain ⟨x, hx, rfl⟩ := List.mem_map.mp hd
  exact value_lt hu (by simpa [digits] using (List.mem_filter.mp hx).2)

theorem foldl_zipIdx (step : Nat → Nat → Nat → Nat) (l : Text) (k c : Nat) :
    (l.zipIdx k).foldl (fun c d => step d.2 c (u.value d.1)) c = run step k c (l.map u.value) := by
  induction l generalizing k c with
  | nil => rfl
  | cons x l ih => simp [run, ih]

def reservedFirst (u : Unicode) (text : Text) : Bool :=
  (digits u text).head?.any fun c => c = '0' || c = '1'

theorem verhoeff_iff {text : Text} : verhoeff u text = true ↔ (values u text).length = 12 ∧
    reservedFirst u text = false ∧ run verhoeffStep 0 0 (values u text).reverse = 0 := by
  have hrun : (digits u text).reverse.zipIdx.foldl (fun c d =>
      entry verhoeffD c (entry verhoeffP (d.2 % 8) (u.value d.1))) 0 =
      run verhoeffStep 0 0 (values u text).reverse := by
    rw [values, ← List.map_reverse, ← foldl_zipIdx]
    rfl
  simp only [verhoeff, hrun, reservedFirst, values, List.length_map]
  by_cases hlen : (digits u text).length = 12
  · by_cases hfirst : (digits u text).head?.any (fun c => c = '0' || c = '1') = true
    · simp [hfirst]
    · simp [hlen, hfirst]
  · simp [hlen]

theorem sum_mapIdx {parity c : Nat} (ds : List Nat) (hc : c < 10) (i : Nat) :
    run (luhnStep parity) i c ds =
      (c + (ds.mapIdx fun k => luhnDigit parity (i + k)).sum) % 10 := by
  induction ds generalizing c i with
  | nil => simp [run, Nat.mod_eq_of_lt hc]
  | cons d ds ih =>
    have hstep : luhnStep parity i c d < 10 := Nat.mod_lt _ (by decide)
    have hrest := ih hstep (i + 1)
    simp only [Nat.add_assoc, Nat.add_comm 1] at hrest
    rw [run, hrest, luhnStep]
    simp only [List.mapIdx_cons, List.sum_cons, Nat.add_zero]
    omega

theorem luhn_iff {text : Text} : luhn u text = true ↔ 12 ≤ (values u text).length ∧
    run (luhnStep ((values u text).length % 2)) 0 0 (values u text) = 0 := by
  rw [sum_mapIdx _ (by decide)]
  simp only [luhn, values, Nat.zero_add]
  by_cases hmany : ((digits u text).map u.value).length < 12
  · have hfew : ¬ 12 ≤ (digits u text).length := by simpa using hmany
    simp [hfew]
  · have hmany' : 12 ≤ (digits u text).length := by simpa using hmany
    simp [hmany']

/-- One wrong digit, or two neighbours in each other's place, and it is no Aadhaar number. -/
theorem aadhaar_slips_seen (hu : Decimal u) (hc : u.isDigit c = true) (hc' : u.isDigit c' = true)
    (hne : u.value c ≠ u.value c') :
    (verhoeff u (pre ++ c :: post) = true → verhoeff u (pre ++ c' :: post) = false) ∧
    ((∀ x ∈ mid, u.isDigit x = false) → verhoeff u (pre ++ c :: mid ++ c' :: post) = true →
      verhoeff u (pre ++ c' :: mid ++ c :: post) = false) := by
  have hlt := values_lt hu
  have hlt' : ∀ text, ∀ d ∈ (values u text).reverse, d < 10 := by
    intro text d hd
    exact hlt text d (List.mem_reverse.mp hd)
  constructor
  · intro h
    by_contra hno
    obtain ⟨-, -, hrun⟩ := verhoeff_iff.mp h
    obtain ⟨-, -, hrun'⟩ := verhoeff_iff.mp (Bool.not_eq_false _ ▸ hno)
    simp only [values_append, values_cons hc, values_cons hc', List.reverse_append,
      List.reverse_cons, List.append_assoc, List.singleton_append] at hrun hrun'
    have hsame := (CheckDigits.run_slip verhoeff_reversible (by simp) (hlt' post)
      (value_lt hu hc) (value_lt hu hc') (hlt' pre)).mp (hrun.trans hrun'.symm)
    exact hne hsame
  · intro hmid h
    by_contra hno
    obtain ⟨-, -, hrun⟩ := verhoeff_iff.mp h
    obtain ⟨-, -, hrun'⟩ := verhoeff_iff.mp (Bool.not_eq_false _ ▸ hno)
    simp only [values_append, values_cons hc, values_cons hc', values_nil_of hmid,
      List.reverse_append, List.reverse_cons, List.append_assoc, List.singleton_append]
      at hrun hrun'
    have hsame := (CheckDigits.run_swap verhoeff_reversible (by simp) (hlt' post)
      (value_lt hu hc') (value_lt hu hc) (hlt' pre)).mp (hrun.trans hrun'.symm)
    have hstate : run verhoeffStep 0 0 (values u post).reverse < 10 :=
      CheckDigits.run_closed verhoeff_reversible (by simp) (hlt' post)
    exact hne (verhoeff_run_swap hstate (value_lt hu hc') (value_lt hu hc) hsame).symm

theorem ascii_decimal : Decimal ascii := by
  intro c n hn
  simp only [ascii, Option.ite_none_right_eq_some, Option.some.injEq] at hn
  obtain ⟨hc, rfl⟩ := hn
  simp only [asciiDigit, Bool.and_eq_true, decide_eq_true_eq] at hc
  have hle : c.toNat ≤ '9'.toNat := hc.2
  have hnine : '9'.toNat = '0'.toNat + 9 := rfl
  omega

theorem space_no_digit : ∀ x ∈ [' '], ascii.isDigit x = false := by
  simp only [List.mem_singleton, forall_eq]
  rfl

theorem aadhaar_example :
    verhoeff ascii ("2341".toList ++ '7' :: "341 2346".toList) = false ∧
    verhoeff ascii ("234".toList ++ '2' :: [' '] ++ '1' :: "341 2346".toList) = false :=
  ⟨(@aadhaar_slips_seen ascii "2341".toList [] "341 2346".toList '2' '7'
      ascii_decimal rfl rfl (by decide)).1 rfl,
   (@aadhaar_slips_seen ascii "234".toList [' '] "341 2346".toList '1' '2'
      ascii_decimal rfl rfl (by decide)).2 space_no_digit rfl⟩

/-- A card number shows one wrong digit, and two neighbours in each other's place unless they are
a zero and a nine. -/
theorem card_slips_seen (hu : Decimal u) (hc : u.isDigit c = true) (hc' : u.isDigit c' = true)
    (hne : u.value c ≠ u.value c') :
    (luhn u (pre ++ c :: post) = true → luhn u (pre ++ c' :: post) = false) ∧
    ((∀ x ∈ mid, u.isDigit x = false) → luhn u (pre ++ c :: mid ++ c' :: post) = true →
      (luhn u (pre ++ c' :: mid ++ c :: post) = true ↔
        (u.value c = 0 ∧ u.value c' = 9) ∨ (u.value c = 9 ∧ u.value c' = 0))) := by
  have hlt := values_lt hu
  constructor
  · intro h
    by_contra hno
    obtain ⟨-, hrun⟩ := luhn_iff.mp h
    obtain ⟨-, hrun'⟩ := luhn_iff.mp (Bool.not_eq_false _ ▸ hno)
    simp only [values_append, values_cons hc, values_cons hc', List.length_append,
      List.length_cons] at hrun hrun'
    have hsame := (CheckDigits.run_slip (luhn_reversible _) (by simp) (hlt pre)
      (value_lt hu hc) (value_lt hu hc') (hlt post)).mp (hrun.trans hrun'.symm)
    exact hne hsame
  · intro hmid h
    obtain ⟨hmany, hrun⟩ := luhn_iff.mp h
    rw [luhn_iff]
    simp only [values_append, values_cons hc, values_cons hc', values_nil_of hmid,
      List.append_assoc, List.singleton_append, List.length_append,
      List.length_cons] at hmany hrun ⊢
    have hswap := CheckDigits.run_swap (luhn_reversible
      (((values u pre).length + ((values u post).length + 1 + 1)) % 2)) (by simp) (hlt pre)
      (value_lt hu hc) (value_lt hu hc') (hlt post) (i := 0) (c := 0)
    rw [luhn_run_swap (by omega) (value_lt hu hc) (value_lt hu hc'), hrun] at hswap
    simp only [hne, false_or] at hswap
    rw [← hswap]
    constructor
    · rintro ⟨-, he⟩
      exact he.symm
    · intro he
      exact ⟨hmany, he.symm⟩

theorem card_example :
    luhn ascii ("4111 1111 1111 11".toList ++ '7' :: ['1']) = false ∧
    (luhn ascii ("4".toList ++ '1' :: [' '] ++ '0' :: "2 8888 8888 1881".toList) = true ↔
      (ascii.value '0' = 0 ∧ ascii.value '1' = 9) ∨ (ascii.value '0' = 9 ∧ ascii.value '1' = 0)) :=
  ⟨(@card_slips_seen ascii "4111 1111 1111 11".toList [] ['1'] '1' '7'
      ascii_decimal rfl rfl (by decide)).1 rfl,
   (@card_slips_seen ascii "4".toList [' '] "2 8888 8888 1881".toList '0' '1'
      ascii_decimal rfl rfl (by decide)).2 space_no_digit rfl⟩

/-- Of the ten digits that can end a number, one makes it an Aadhaar number and one makes it a
card number. -/
theorem one_check_digit (hu : Decimal u) (pre : Text) :
    ((digits u pre).length = 11 → reservedFirst u pre = false →
      ∃ d < 10, ∀ c, u.isDigit c = true → (verhoeff u (pre ++ [c]) = true ↔ u.value c = d)) ∧
    (11 ≤ (digits u pre).length →
      ∃ d < 10, ∀ c, u.isDigit c = true → (luhn u (pre ++ [c]) = true ↔ u.value c = d)) := by
  have hlen : (values u pre).length = (digits u pre).length := by simp [values]
  constructor
  · intro hmany hfirst
    have hlt : ∀ d ∈ (values u pre).reverse, d < 10 := fun d hd =>
      values_lt hu pre d (List.mem_reverse.mp hd)
    have hnone : ∀ e ∈ ([] : List Nat), e < 10 := by simp
    obtain ⟨d, ⟨hd, hrun⟩, honly⟩ := CheckDigits.exists_digit (i := 0) (c := 0) (t := 0)
      verhoeff_reversible (by decide) (by decide) hnone hlt
    refine ⟨d, hd, fun c hc => ?_⟩
    have hfirst' : reservedFirst u (pre ++ [c]) = false := by
      have hcut : digits u (pre ++ [c]) = digits u pre ++ digits u [c] := by simp [digits]
      cases hd : digits u pre with
      | nil => simp [hd] at hmany
      | cons x xs => simpa [reservedFirst, hcut, hd] using hfirst
    rw [verhoeff_iff, values_append, values_cons hc]
    simp only [List.length_append, hlen, hmany, hfirst', List.reverse_append, true_and]
    constructor
    · intro h
      exact honly _ ⟨value_lt hu hc, h.2⟩
    · rintro rfl
      exact ⟨rfl, hrun⟩
  · intro hmany
    have hnone : ∀ e ∈ ([] : List Nat), e < 10 := by simp
    obtain ⟨d, ⟨hd, hrun⟩, honly⟩ := CheckDigits.exists_digit (i := 0) (c := 0) (t := 0)
      (luhn_reversible (((digits u pre).length + 1) % 2)) (by decide) (by decide)
      (values_lt hu pre) hnone
    refine ⟨d, hd, fun c hc => ?_⟩
    rw [luhn_iff, values_append, values_cons hc]
    have hend : values u [] = [] := rfl
    simp only [hend, List.length_append, hlen, List.length_singleton]
    constructor
    · intro h
      exact honly _ ⟨value_lt hu hc, h.2⟩
    · rintro rfl
      exact ⟨by omega, hrun⟩

theorem check_digit_example :
    ∃ d < 10, ∀ c, ascii.isDigit c = true →
      (verhoeff ascii ("2341 2341 234".toList ++ [c]) = true ↔ ascii.value c = d) :=
  (one_check_digit ascii_decimal "2341 2341 234".toList).1 rfl rfl

end Recognizers

end KnowledgeBase
