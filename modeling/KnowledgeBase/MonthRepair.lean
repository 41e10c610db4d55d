import KnowledgeBase.MonthHeaders
import KnowledgeBase.Splitting

/-! Where the repair of a row of months keeps what is legible. After a repair every label of the run
is written for one start, so a second one can only move them by whole centuries. -/

namespace KnowledgeBase.Artifact

open Regex Recognizers Majority

namespace MonthHeaders

section Run

variable {s} {row : List Text} {first last c e n : Nat} {offset : Int}

theorem lt_of_shaped (h : shaped s row c = true) : c < row.length := by
  by_contra hge
  simp [shaped, labelAt, List.getElem?_eq_none (Nat.le_of_not_lt hge)] at h

theorem extendLeft_spec (s : HeaderTools) (row : List Text) (c : Nat) :
    extendLeft s row c ≤ c ∧ (∀ x, extendLeft s row c ≤ x → x < c → shaped s row x = true) ∧
      ∀ x, x + 1 = extendLeft s row c → shaped s row x = false := by
  induction c with
  | zero => simp [extendLeft]
  | succ c ih =>
    obtain ⟨hle, hall, hstop⟩ := ih
    rw [extendLeft]
    split
    · rename_i h
      refine ⟨by omega, fun x hx hlt => ?_, hstop⟩
      by_cases hc : x = c
      · rwa [hc]
      · exact hall x hx (by omega)
    · rename_i h
      exact ⟨le_rfl, fun x hx hlt => by omega, fun x hx => by
        obtain rfl : x = c := by omega
        simpa using h⟩

theorem extendLeft_eq (he : e ≤ c) (hall : ∀ x, e ≤ x → x < c → shaped s row x = true)
    (hstop : ∀ x, x + 1 = e → shaped s row x = false) : extendLeft s row c = e := by
  obtain ⟨hle, hall', hstop'⟩ := extendLeft_spec s row c
  rcases Nat.lt_trichotomy (extendLeft s row c) e with h | h | h
  · have h1 := hall' (e - 1) (by omega) (by omega)
    rw [hstop (e - 1) (by omega)] at h1
    cases h1
  · exact h
  · have h1 := hall (extendLeft s row c - 1) (by omega) (by omega)
    rw [hstop' (extendLeft s row c - 1) (by omega)] at h1
    cases h1

theorem extendRight_spec (s : HeaderTools) (row : List Text) (c : Nat) {n : Nat}
    (hn : row.length ≤ c + 1 + n) : c ≤ extendRight s row c n ∧
      (∀ x, c < x → x ≤ extendRight s row c n → shaped s row x = true) ∧
      shaped s row (extendRight s row c n + 1) = false := by
  induction n generalizing c with
  | zero =>
    refine ⟨le_rfl, fun x hx hle => absurd hle (by simpa [extendRight] using hx), ?_⟩
    by_contra h
    have := lt_of_shaped (by simpa [extendRight] using h : shaped s row (c + 1) = true)
    omega
  | succ n ih =>
    rw [extendRight]
    split
    · rename_i h
      obtain ⟨hle, hall, hstop⟩ := ih (c + 1) (by omega)
      refine ⟨by omega, fun x hx hxle => ?_, hstop⟩
      by_cases hc : x = c + 1
      · rwa [hc]
      · exact hall x (by omega) hxle
    · rename_i h
      exact ⟨le_rfl, fun x hx hle => by omega, by simpa using h⟩

theorem extendRight_eq (hn : row.length ≤ c + 1 + n) (he : c ≤ e)
    (hall : ∀ x, c < x → x ≤ e → shaped s row x = true)
    (hstop : shaped s row (e + 1) = false) : extendRight s row c n = e := by
  obtain ⟨hle, hall', hstop'⟩ := extendRight_spec s row c hn
  rcases Nat.lt_trichotomy (extendRight s row c n) e with h | h | h
  · have h1 := hall (extendRight s row c n + 1) (by omega) (by omega)
    rw [hstop'] at h1
    cases h1
  · exact h
  · have h1 := hall' (e + 1) (by omega) (by omega)
    rw [hstop] at h1
    cases h1

variable (s row first last offset) in
/-- The labels that read carry the run: there are four, between them there is nothing but months
and blanks, the run goes on to the last month beside them, and at least four, and three of four,
agree on where it starts. -/
structure Carries : Prop where
  enough : 4 ≤ (known s row).length
  within : ∀ c ∈ known s row, first ≤ c ∧ c ≤ last
  plain : ∀ c, first ≤ c → c ≤ last → shaped s row c = true ∨
    blank s row c = true ∧ ∃ a ∈ known s row, ∃ b ∈ known s row, a < c ∧ c < b
  left : ∀ c, c + 1 = first → shaped s row c = false
  right : shaped s row (last + 1) = false
  support : 4 ≤ (votes s row).count offset
  agree : 3 * (votes s row).length ≤ 4 * (votes s row).count offset

theorem known_shaped (h : c ∈ known s row) : shaped s row c = true := by
  have hany := (List.mem_filter.mp h).2
  cases hlabel : labelAt s row c with
  | none => simp [hlabel] at hany
  | some label => simp [shaped, hlabel]

theorem min_max (h : 4 ≤ (known s row).length) : ∃ a b, (known s row).min? = some a ∧
    (known s row).max? = some b ∧ a ∈ known s row ∧ b ∈ known s row ∧
    ∀ c ∈ known s row, a ≤ c ∧ c ≤ b := by
  have hne : known s row ≠ [] := List.length_pos_iff.mp (by omega)
  obtain ⟨a, ha⟩ := Option.isSome_iff_exists.mp (List.isSome_min?_of_ne_nil hne)
  obtain ⟨b, hb⟩ := Option.isSome_iff_exists.mp (List.isSome_max?_of_ne_nil hne)
  obtain ⟨hamem, hale⟩ := List.min?_eq_some_iff.mp ha
  obtain ⟨hbmem, hble⟩ := List.max?_eq_some_iff.mp hb
  exact ⟨a, b, ha, hb, hamem, hbmem, fun c hc => ⟨hale c hc, hble c hc⟩⟩

theorem run_eq_some_iff :
    run s row = some (first, last, offset) ↔ Carries s row first last offset := by
  constructor
  · intro h
    simp only [run] at h
    split at h
    · cases h
    rename_i henough
    obtain ⟨a, b, hmin, hmax, ha, hb, hbounds⟩ := min_max (Nat.le_of_not_lt henough)
    rw [hmin, hmax, Option.getD_some, Option.getD_some] at h
    split at h
    · cases h
    rename_i hgap
    obtain ⟨winner, -, h⟩ := Option.bind_eq_some_iff.mp h
    split at h
    · cases h
    rename_i hvote
    simp only [Option.some.injEq, Prod.mk.injEq] at h
    obtain ⟨rfl, rfl, rfl⟩ := h
    obtain ⟨hleft, hleftall, hleftstop⟩ := extendLeft_spec s row a
    obtain ⟨hright, hrightall, hrightstop⟩ := extendRight_spec s row b
      (by omega : row.length ≤ b + 1 + row.length)
    refine ⟨Nat.le_of_not_lt henough, fun c hc => ?_, fun c hc hc' => ?_, hleftstop, hrightstop,
      by omega, by omega⟩
    · have := hbounds c hc
      omega
    · by_cases hca : c < a
      · exact .inl (hleftall c hc hca)
      by_cases hcb : b < c
      · exact .inl (hrightall c hcb hc')
      by_cases hshaped : shaped s row c = true
      · exact .inl hshaped
      refine .inr ⟨?_, a, ha, b, hb, ?_, ?_⟩
      · have hblank : ∀ x, a ≤ x → x < a + (b + 1 - a) → shaped s row x = false →
            blank s row x = true := by simpa using hgap
        exact hblank c (by omega) (by omega) (by simpa using hshaped)
      · rcases Nat.lt_or_eq_of_le (Nat.le_of_not_lt hca) with hlt | rfl
        · exact hlt
        · exact absurd (known_shaped ha) hshaped
      · rcases Nat.lt_or_eq_of_le (Nat.le_of_not_lt hcb) with hlt | rfl
        · exact hlt
        · exact absurd (known_shaped hb) hshaped
  · intro h
    obtain ⟨a, b, hmin, hmax, ha, hb, hbounds⟩ := min_max h.enough
    obtain ⟨hfa, hal⟩ := h.within a ha
    obtain ⟨hfb, hbl⟩ := h.within b hb
    have hgap : (List.range' a (b + 1 - a)).any
        (fun c => !shaped s row c && !blank s row c) = false := by
      refine List.any_eq_false.mpr fun c hc => ?_
      obtain ⟨hac, hcb⟩ := List.mem_range'_1.mp hc
      rcases h.plain c (by omega) (by omega) with h | h
      · simp [h]
      · simp [h.1]
    have hwin : winner (votes s row) = some offset := by
      have hsupport := h.support
      have hagree := h.agree
      have hle := List.count_le_length (a := offset) (l := votes s row)
      exact winner_of_majority (by omega)
    have hleft : extendLeft s row a = first := by
      refine extendLeft_eq hfa (fun x hx hxa => ?_) h.left
      rcases h.plain x hx (by omega) with h | ⟨-, a', ha', b', -, hlt, -⟩
      · exact h
      · have := hbounds a' ha'
        omega
    have hright : extendRight s row b row.length = last := by
      refine extendRight_eq (by omega) hbl (fun x hx hxl => ?_) h.right
      rcases h.plain x (by omega) hxl with h | ⟨-, a', -, b', hb', -, hlt⟩
      · exact h
      · have := hbounds b' hb'
        omega
    have henough := h.enough
    have hsupport := h.support
    have hagree := h.agree
    simp only [run, hmin, hmax, Option.getD_some, hgap, hwin, Option.bind_some, hleft, hright]
    rw [if_neg (by omega), if_neg (by simp), if_neg (by omega)]

end Run

section Again

variable {s} {row : List Text} {first last c : Nat} {offset : Int} {cell : Text} {label : Label}

theorem number_lt {digits : Text} (h : digits.length = 2) : number s digits < 100 := by
  obtain ⟨a, b, rfl⟩ := List.length_eq_two.mp h
  have hvalue : ∀ c, s.value c < 10 := by
    intro c
    rw [Unicode.value]
    cases hc : s.decimal c with
    | none => simp
    | some n => exact s.decimal_lt c n hc
  have ha := hvalue a
  have hb := hvalue b
  simp only [number, List.foldl_cons, List.foldl_nil]
  omega

theorem parse_fields (h : parse s cell = some label) :
    label.month = monthIndex s label.letters ∧ label.letters.length ≤ maxDamagedLetters ∧
      ∀ y, label.year = some y → 2000 ≤ y ∧ y < 2100 := by
  obtain ⟨⟨name, digits⟩, -, h⟩ := Option.bind_eq_some_iff.mp h
  dsimp only at h
  split at h
  · cases h
  rename_i hlen
  obtain rfl := Option.some.inj h
  refine ⟨rfl, Nat.le_of_not_lt hlen, fun y hy => ?_⟩
  dsimp only at hy
  split at hy
  · rename_i htwo
    have := number_lt (s := s) htwo
    obtain rfl := Option.some.inj hy
    omega
  · cases hy

theorem month_lt (offset : Int) (c : Nat) : ((offset + c) % 12).toNat < 12 := by omega

/-- What stands in a column of the run once it is repaired. -/
theorem relabel_cases (s : HeaderTools) (offset : Int) (c : Nat) (cell : Text) :
    (∃ label, parse s cell = some label ∧ Agrees offset c label ∧ relabel s offset c cell = cell) ∨
    (∀ label, parse s cell = some label → ¬ Agrees offset c label) ∧ relabel s offset c cell =
      monthLabel s (lettersOf s cell) ((offset + c) % 12).toNat ((offset + c) / 12) := by
  cases hparse : parse s cell with
  | none => exact .inr ⟨nofun, by simp [relabel, hparse]⟩
  | some label =>
    by_cases h : Agrees offset c label
    · exact .inl ⟨label, rfl, h, by simp [relabel, hparse, h]⟩
    · exact .inr ⟨fun l hl => by rwa [← Option.some.inj hl], by simp [relabel, hparse, h]⟩

theorem parse_monthLabel (letters : Text) {m : Nat} (hm : m < 12) (year : Int) :
    parse s (monthLabel s letters m year) =
      if long s letters m = true then none
      else some { letters := labelName s letters m, month := some m,
                  year := some (2000 + (year % 100).toNat) } := by
  obtain ⟨ht, htens⟩ := digitChar_digit (n := (year % 100).toNat / 10) (by omega)
  obtain ⟨hu, hunits⟩ := digitChar_digit (n := (year % 100).toNat % 10) (by omega)
  have hyear : 10 * ((year % 100).toNat / 10) + (year % 100).toNat % 10 = (year % 100).toNat := by
    omega
  rw [monthLabel, twoDigits, parse_of_names hm (names_labelName hm) ht hu, htens, hunits, hyear]
  simp only [long_iff hm]

/-- A label that agrees is read again as it was. -/
theorem Agrees.read (hparse : parse s cell = some label) (h : Agrees offset c label) :
    label.month = some ((offset + c) % 12).toNat ∧
      long s label.letters ((offset + c) % 12).toNat = false ∧
      label.year = some (2000 + ((offset + c) / 12 % 100).toNat) := by
  obtain ⟨hmonth, hlen, hyear⟩ := parse_fields hparse
  obtain ⟨hnames, hy⟩ := h
  obtain ⟨y, hy, hcast⟩ := Option.map_eq_some_iff.mp hy
  have hbounds := hyear y hy
  refine ⟨hmonth.trans (monthIndex_of_names s (month_lt offset c) hnames),
    hnames.not_long (month_lt offset c) hlen, ?_⟩
  rw [hy]
  congr 1
  omega

/-- What is read in a column of the run once it is repaired: its month, and its year of the
hundred from 2000. -/
theorem parse_relabel (s : HeaderTools) (offset : Int) (c : Nat) (cell : Text) :
    if long s (lettersOf s cell) ((offset + c) % 12).toNat = true then
      parse s (relabel s offset c cell) = none
    else ∃ label, parse s (relabel s offset c cell) = some label ∧
      label.month = some ((offset + c) % 12).toNat ∧
      label.year = some (2000 + ((offset + c) / 12 % 100).toNat) := by
  rcases relabel_cases s offset c cell with ⟨label, hparse, hagrees, hsame⟩ | ⟨-, hnew⟩
  · obtain ⟨hmonth, hlong, hyear⟩ := hagrees.read hparse
    have hletters : lettersOf s cell = label.letters := by simp [lettersOf, hparse]
    rw [if_neg (by simp [hletters, hlong]), hsame]
    exact ⟨label, hparse, hmonth, hyear⟩
  · rw [hnew, parse_monthLabel _ (month_lt offset c)]
    split
    · rfl
    · exact ⟨_, rfl, rfl, rfl⟩

end Again

section Repair

variable (s : HeaderTools) (row : List Text) (first last : Nat) (offset : Int)

/-- The columns of the run whose new label is short enough to be read again. -/
def reread : List Nat :=
  (List.range row.length).filter fun c => first ≤ c ∧ c ≤ last ∧
    long s (lettersOf s (row.getD c [])) ((offset + c) % 12).toNat = false

/-- The hundred years a column of the run falls in. -/
def century (c : Nat) : Int := (offset + c) / 1200

/-- Every label of the run that spells a month spells the one the vote gives its column, up to
whole centuries. -/
def Unanimous : Prop := ∀ c cell m yy, row[c]? = some cell → first ≤ c → c ≤ last →
  Spells cell m yy → (offset + c) % 1200 = 12 * yy + m

/-- Where another century than the one from 2000 wins the vote of the labels short enough to be
read again, every label the repair keeps is written as the repair writes it. -/
def Settled : Prop := ∀ k : Int, k ≠ 20 →
  (∀ c, (∃ a ∈ reread s row first last offset, a ≤ c) →
    (∃ b ∈ reread s row first last offset, c ≤ b) → c ∈ reread s row first last offset) →
  4 ≤ (reread s row first last offset).countP (fun c => century offset c = k) →
  3 * (reread s row first last offset).length ≤
    4 * (reread s row first last offset).countP (fun c => century offset c = k) →
  ∀ c cell label, row[c]? = some cell → first ≤ c → c ≤ last → parse s cell = some label →
    Agrees offset c label →
      cell = monthLabel s label.letters ((offset + c) % 12).toNat ((offset + c) / 12)

variable {s row first last offset} {c : Nat}

theorem repair_getElem? (h : Carries s row first last offset) (c : Nat) :
    (repairMonthHeaders s row)[c]? = row[c]?.map fun cell =>
      if first ≤ c ∧ c ≤ last then relabel s offset c cell else cell := by
  rw [repairMonthHeaders, run_eq_some_iff.mpr h]
  simp [List.getElem?_zipIdx, Option.map_map, Function.comp_def]

theorem repair_outside (h : Carries s row first last offset) (hc : ¬ (first ≤ c ∧ c ≤ last)) :
    (repairMonthHeaders s row)[c]? = row[c]? := by
  rw [repair_getElem? h]
  simp [hc]

theorem repair_inside (h : Carries s row first last offset) (hf : first ≤ c) (hl : c ≤ last)
    {cell : Text} (hcell : row[c]? = some cell) :
    (repairMonthHeaders s row)[c]? = some (relabel s offset c cell) := by
  rw [repair_getElem? h, hcell, Option.map_some, if_pos ⟨hf, hl⟩]

theorem repair_length (s : HeaderTools) (row : List Text) :
    (repairMonthHeaders s row).length = row.length := by
  rw [repairMonthHeaders]
  split <;> simp

theorem mem_reread : c ∈ reread s row first last offset ↔ ∃ cell, row[c]? = some cell ∧ first ≤ c ∧
    c ≤ last ∧ long s (lettersOf s cell) ((offset + c) % 12).toNat = false := by
  rw [reread, List.mem_filter, List.mem_range]
  constructor
  · rintro ⟨hlt, h⟩
    exact ⟨row[c], List.getElem?_eq_getElem hlt, by simpa [hlt] using h⟩
  · rintro ⟨cell, hcell, h⟩
    obtain ⟨hlt, rfl⟩ := List.getElem?_eq_some_iff.mp hcell
    exact ⟨hlt, by simpa [hlt] using h⟩

/-- What a column reads as after the repair. -/
theorem labelAt_repair (h : Carries s row first last offset) :
    if c ∈ reread s row first last offset then
      ∃ label, labelAt s (repairMonthHeaders s row) c = some label ∧
        label.month = some ((offset + c) % 12).toNat ∧
        label.year = some (2000 + ((offset + c) / 12 % 100).toNat)
    else if first ≤ c ∧ c ≤ last then labelAt s (repairMonthHeaders s row) c = none
    else labelAt s (repairMonthHeaders s row) c = labelAt s row c := by
  by_cases hin : first ≤ c ∧ c ≤ last
  · cases hcell : row[c]? with
    | none =>
      have hno : c ∉ reread s row first last offset := fun hc => by
        obtain ⟨cell, h, -⟩ := mem_reread.mp hc
        rw [hcell] at h
        cases h
      rw [if_neg hno, if_pos hin, labelAt, repair_getElem? h, hcell]
      rfl
    | some cell =>
      have hparse := parse_relabel s offset c cell
      have hat : labelAt s (repairMonthHeaders s row) c = parse s (relabel s offset c cell) := by
        rw [labelAt, repair_inside h hin.1 hin.2 hcell, Option.bind_some]
      rw [hat]
      split at hparse
      · rename_i hlong
        have hno : c ∉ reread s row first last offset := fun hc => by
          obtain ⟨cell', hcell', -, -, hshort⟩ := mem_reread.mp hc
          rw [hcell, Option.some.injEq] at hcell'
          rw [hcell', hshort] at hlong
          cases hlong
        rw [if_neg hno, if_pos hin]
        exact hparse
      · rename_i hlong
        rw [if_pos (mem_reread.mpr ⟨cell, hcell, hin.1, hin.2, by simpa using hlong⟩)]
        exact hparse
  · have hno : c ∉ reread s row first last offset := fun hc => by
      obtain ⟨cell, -, hf, hl, -⟩ := mem_reread.mp hc
      exact hin ⟨hf, hl⟩
    rw [if_neg hno, if_neg hin, labelAt, labelAt, repair_outside h hin]

theorem labelAt_reread (h : Carries s row first last offset)
    (hc : c ∈ reread s row first last offset) :
    ∃ label, labelAt s (repairMonthHeaders s row) c = some label ∧
      label.month = some ((offset + c) % 12).toNat ∧
      label.year = some (2000 + ((offset + c) / 12 % 100).toNat) := by
  simpa only [if_pos hc] using labelAt_repair (c := c) h

theorem shaped_repair (h : Carries s row first last offset) (hf : first ≤ c) (hl : c ≤ last) :
    shaped s (repairMonthHeaders s row) c = true ↔ c ∈ reread s row first last offset := by
  by_cases hc : c ∈ reread s row first last offset
  · obtain ⟨label, hlabel, -⟩ := labelAt_reread h hc
    simp [shaped, hlabel, hc]
  · have hnone := labelAt_repair (c := c) h
    rw [if_neg hc, if_pos ⟨hf, hl⟩] at hnone
    simp [shaped, hnone, hc]

theorem shaped_outside (h : Carries s row first last offset) (hc : ¬ (first ≤ c ∧ c ≤ last)) :
    shaped s (repairMonthHeaders s row) c = shaped s row c := by
  rw [shaped, shaped, labelAt, labelAt, repair_outside h hc]

/-- The columns known after the repair are those of the run whose label can be read again. -/
theorem known_repair (h : Carries s row first last offset) :
    known s (repairMonthHeaders s row) = reread s row first last offset := by
  have hmem : ∀ c < row.length, ((labelAt s (repairMonthHeaders s row) c).any (·.month.isSome) = true ↔
      c ∈ reread s row first last offset) := by
    intro c hlt
    by_cases hc : c ∈ reread s row first last offset
    · obtain ⟨label, hlabel, hmonth, -⟩ := labelAt_reread h hc
      simp [hlabel, hmonth, hc]
    · have hlabel := labelAt_repair (c := c) h
      rw [if_neg hc] at hlabel
      split at hlabel
      · simp [hlabel, hc]
      · rename_i hout
        refine iff_of_false (fun hany => hout ?_) hc
        rw [hlabel] at hany
        exact h.within c (List.mem_filter.mpr ⟨List.mem_range.mpr hlt, hany⟩)
  rw [known, repair_length, reread]
  refine List.filter_congr fun c hc => ?_
  have hiff := hmem c (List.mem_range.mp hc)
  rw [reread, List.mem_filter, and_iff_right hc] at hiff
  exact Bool.eq_iff_iff.mpr hiff

/-- A label that is read again votes for the start of the run, moved by whole centuries. -/
theorem votes_repair (h : Carries s row first last offset) :
    votes s (repairMonthHeaders s row) =
      (reread s row first last offset).map fun c => offset + 1200 * (20 - century offset c) := by
  have hvote : ∀ c ∈ reread s row first last offset,
      start s (repairMonthHeaders s row) c = some (offset + 1200 * (20 - century offset c)) := by
    intro c hc
    obtain ⟨label, hlabel, hmonth, hyear⟩ := labelAt_reread h hc
    rw [start, hlabel, Option.bind_some, hmonth, Option.bind_some, hyear, Option.map_some]
    congr 1
    rw [century]
    omega
  rw [votes, known_repair h]
  generalize reread s row first last offset = cs at hvote
  induction cs with
  | nil => rfl
  | cons c cs ih =>
    obtain ⟨hc, hcs⟩ := List.forall_mem_cons.mp hvote
    rw [List.filterMap_cons_some hc, ih hcs, List.map_cons]

theorem count_votes (h : Carries s row first last offset) (k : Int) :
    (votes s (repairMonthHeaders s row)).count (offset + 1200 * (20 - k)) =
      (reread s row first last offset).countP fun c => century offset c = k := by
  rw [votes_repair h, List.count_eq_countP, List.countP_map]
  refine List.countP_congr fun c _ => ?_
  simp only [Function.comp_apply, beq_iff_eq, decide_eq_true_eq]
  omega

end Repair

section Kept

variable {s : HeaderTools} {row : List Text} {first last : Nat} {offset : Int} {c : Nat}

theorem repair_of_none (h : run s row = none) : repairMonthHeaders s row = row := by
  rw [repairMonthHeaders, h]

theorem other_kept (s : HeaderTools) {row : List Text} {cell : Text} (hcell : row[c]? = some cell)
    (hword : trim s.toTables cell ≠ []) (hno : monthCell s cell = none) :
    (repairMonthHeaders s row)[c]? = some cell := by
  cases hrun : run s row with
  | none => rw [repair_of_none hrun, hcell]
  | some r =>
    have h := run_eq_some_iff.mp hrun
    by_cases hin : r.1 ≤ c ∧ c ≤ r.2.1
    · rcases h.plain c hin.1 hin.2 with hshaped | ⟨hblank, -⟩
      · simp [shaped, labelAt, hcell, parse, hno] at hshaped
      · simp only [blank, decide_eq_true_eq, List.getD_eq_getElem?_getD, hcell,
          Option.getD_some] at hblank
        exact absurd hblank hword
    · rw [repair_outside h hin, hcell]

/-- The labels that spell a month keep it exactly where they agree with the vote. -/
theorem spelled_iff (h : Carries s row first last offset) :
    (∀ (c : Nat) cell m yy, row[c]? = some cell → Spells cell m yy →
      ∃ cell', (repairMonthHeaders s row)[c]? = some cell' ∧ Spells cell' m yy) ↔
      Unanimous row first last offset := by
  constructor
  · intro hkept c cell m yy hcell hf hl hspells
    obtain ⟨cell', hcell', hspells'⟩ := hkept c cell m yy hcell hspells
    rw [repair_inside h hf hl hcell, Option.some.injEq] at hcell'
    subst hcell'
    rcases relabel_cases s offset c cell with ⟨label, hparse, hagrees, -⟩ | ⟨-, hnew⟩
    · obtain ⟨hm, name, d, e, rfl, hname, hd, he, rfl⟩ := hspells
      rw [parse_of_names hm hname hd he] at hparse
      split at hparse
      · cases hparse
      · obtain rfl := Option.some.inj hparse
        have hmonth := names_unique hm (month_lt offset c) hname hagrees.1
        have hyear := Option.some.inj hagrees.2
        have htens := digit_toNat hd
        have hunits := digit_toNat he
        push_cast at hyear
        omega
    · rw [hnew] at hspells'
      obtain ⟨hmonth, hyear⟩ := hspells'.unique (spells_monthLabel (month_lt offset c) _)
      omega
  · intro hall c cell m yy hcell hspells
    by_cases hin : first ≤ c ∧ c ≤ last
    · refine ⟨_, repair_inside h hin.1 hin.2 hcell, ?_⟩
      rcases relabel_cases s offset c cell with ⟨label, -, -, hsame⟩ | ⟨-, hnew⟩
      · rwa [hsame]
      · have hvote := hall c cell m yy hcell hin.1 hin.2 hspells
        have hyy : yy < 100 := by
          obtain ⟨-, -, d, e, -, -, hd, he, rfl⟩ := hspells
          have := digit_toNat hd
          have := digit_toNat he
          omega
        have hlabel := @spells_monthLabel s (lettersOf s cell) ((offset + c) % 12).toNat
          (month_lt offset c) ((offset + c) / 12)
        have hm := hspells.1
        rw [← hnew, show ((offset + c) % 12).toNat = m by omega,
          show ((offset + c) / 12 % 100).toNat = yy by omega] at hlabel
        exact hlabel
    · exact ⟨cell, (repair_outside h hin).trans hcell, hspells⟩

/-- A label that does not agree with the run is written, and written the same for a start that
differs by whole centuries. -/
theorem relabel_monthLabel {letters : Text} {k year : Int}
    (hyear : year = (offset + c) / 12)
    (hshort : long s letters ((offset + c) % 12).toNat = false) :
    relabel s (offset + 1200 * k) c (monthLabel s letters ((offset + c) % 12).toNat year) =
      monthLabel s letters ((offset + c) % 12).toNat year := by
  have hm := month_lt offset c
  have hmonth : ((offset + 1200 * k + c) % 12).toNat = ((offset + c) % 12).toNat := by omega
  rcases relabel_cases s (offset + 1200 * k) c
    (monthLabel s letters ((offset + c) % 12).toNat year) with ⟨-, -, -, hsame⟩ | ⟨-, hnew⟩
  · exact hsame
  · have hletters : lettersOf s (monthLabel s letters ((offset + c) % 12).toNat year) =
        labelName s letters ((offset + c) % 12).toNat := by
      rw [lettersOf, parse_monthLabel _ hm, if_neg (by simp [hshort])]
      rfl
    rw [hnew, hletters, hmonth]
    exact monthLabel_labelName hm (by omega)

/-- A second repair, with the labels moved by whole centuries, leaves what the first wrote. -/
theorem relabel_relabel {cell : Text} (k : Int)
    (hshort : long s (lettersOf s cell) ((offset + c) % 12).toNat = false)
    (hkept : ∀ label, parse s cell = some label → Agrees offset c label → k ≠ 0 →
      cell = monthLabel s label.letters ((offset + c) % 12).toNat ((offset + c) / 12)) :
    relabel s (offset + 1200 * k) c (relabel s offset c cell) = relabel s offset c cell := by
  rcases relabel_cases s offset c cell with ⟨label, hparse, hagrees, hsame⟩ | ⟨-, hnew⟩
  · rw [hsame]
    by_cases hk : k = 0
    · rw [hk, mul_zero, add_zero, hsame]
    · have hletters : lettersOf s cell = label.letters := by simp [lettersOf, hparse]
      rw [hkept label hparse hagrees hk]
      exact relabel_monthLabel rfl (hletters ▸ hshort)
  · rw [hnew]
    exact relabel_monthLabel rfl hshort

theorem mem_votes_repair (h : Carries s row first last offset) {vote : Int}
    (hvote : vote ∈ votes s (repairMonthHeaders s row)) : ∃ k, vote = offset + 1200 * (20 - k) := by
  rw [votes_repair h] at hvote
  obtain ⟨c, -, rfl⟩ := List.mem_map.mp hvote
  exact ⟨_, rfl⟩

/-- The run of the repaired row lies in the run of the row. -/
theorem Carries.within_run (h : Carries s row first last offset) {first' last' : Nat}
    {offset' : Int} (h' : Carries s (repairMonthHeaders s row) first' last' offset') :
    first ≤ first' ∧ last' ≤ last := by
  have hin : ∀ a ∈ known s (repairMonthHeaders s row), first ≤ a ∧ a ≤ last := by
    intro a ha
    rw [known_repair h] at ha
    obtain ⟨cell, -, hf, hl, -⟩ := mem_reread.mp ha
    exact ⟨hf, hl⟩
  obtain ⟨a, ha⟩ : ∃ a, a ∈ known s (repairMonthHeaders s row) :=
    List.exists_mem_of_length_pos (by have := h'.enough; omega)
  have hbounds := hin a ha
  have hbounds' := h'.within a ha
  constructor
  · by_contra hlt
    rcases h'.plain (first - 1) (by omega) (by omega) with hshaped | ⟨-, b, hb, -, -, hlt', -⟩
    · rw [shaped_outside h (by omega), h.left (first - 1) (by omega)] at hshaped
      cases hshaped
    · have := hin b hb
      omega
  · by_contra hlt
    rcases h'.plain (last + 1) (by omega) (by omega) with hshaped | ⟨-, -, -, b, hb, -, hlt'⟩
    · rw [shaped_outside h (by omega), h.right] at hshaped
      cases hshaped
    · have := hin b hb
      omega

/-- Nothing in the run is blank once it is repaired. -/
theorem mem_reread_of_run (h : Carries s row first last offset) {first' last' : Nat}
    {offset' : Int} (h' : Carries s (repairMonthHeaders s row) first' last' offset')
    (hf : first' ≤ c) (hl : c ≤ last') : c ∈ reread s row first last offset := by
  obtain ⟨hfirst, hlast⟩ := h.within_run h'
  rcases h'.plain c hf hl with hshaped | ⟨hblank, a, -, b, hb, -, hlt⟩
  · exact (shaped_repair h (by omega) (by omega)).mp hshaped
  · rw [known_repair h] at hb
    obtain ⟨cell', hcell', -⟩ := mem_reread.mp hb
    have hlen := (List.getElem?_eq_some_iff.mp hcell').1
    have hcell : row[c]? = some row[c] := List.getElem?_eq_getElem (by omega)
    have hat := repair_inside h (by omega) (by omega) hcell
    by_cases hmem : c ∈ reread s row first last offset
    · exact hmem
    · have hnone := labelAt_repair (c := c) h
      rw [if_neg hmem, if_pos ⟨by omega, by omega⟩] at hnone
      rw [labelAt, hat, Option.bind_some] at hnone
      have hspaces : ∀ x ∈ relabel s offset c row[c], s.isSpace x = true := by
        rw [blank, decide_eq_true_eq, List.getD_eq_getElem?_getD, hat, Option.getD_some] at hblank
        exact letters_eq_nil_iff.mp (trim_eq_nil_iff.mp hblank)
      rcases relabel_cases s offset c row[c] with ⟨label, hparse, -, hsame⟩ | ⟨-, hnew⟩
      · rw [hsame, hparse] at hnone
        cases hnone
      · rw [hnew, monthLabel] at hspaces
        have hyphen := hspaces '-' (by simp)
        rw [isSpace_of_toNat s (by decide) (by decide)] at hyphen
        cases hyphen

end Kept

section Legible

variable {s : HeaderTools} {row : List Text} {first last : Nat} {offset : Int}

/-- The labels read again vote for the century `k` and leave no gap: the repaired row has a run. -/
theorem carries_again (h : Carries s row first last offset) {k : Int}
    (hplain : ∀ c, (∃ a ∈ reread s row first last offset, a ≤ c) →
      (∃ b ∈ reread s row first last offset, c ≤ b) → c ∈ reread s row first last offset)
    (hfour : 4 ≤ (reread s row first last offset).countP (fun c => century offset c = k))
    (hagree : 3 * (reread s row first last offset).length ≤
      4 * (reread s row first last offset).countP (fun c => century offset c = k)) :
    ∃ first' last', Carries s (repairMonthHeaders s row) first' last' (offset + 1200 * (20 - k)) ∧
      ∀ c ∈ reread s row first last offset, first' ≤ c ∧ c ≤ last' := by
  have hknown := known_repair h
  have henough : 4 ≤ (known s (repairMonthHeaders s row)).length := by
    have := List.countP_le_length (p := fun c => decide (century offset c = k))
      (l := reread s row first last offset)
    rw [hknown]
    omega
  obtain ⟨a, b, -, -, ha, hb, hbounds⟩ := min_max henough
  rw [hknown] at ha hb hbounds
  have hin : ∀ c ∈ reread s row first last offset, first ≤ c ∧ c ≤ last := by
    intro c hc
    obtain ⟨cell, -, hf, hl, -⟩ := mem_reread.mp hc
    exact ⟨hf, hl⟩
  have hain := hin a ha
  have hbin := hin b hb
  have hunread : ∀ c, first ≤ c → c ≤ last → c ∉ reread s row first last offset →
      shaped s (repairMonthHeaders s row) c = false := by
    intro c hf hl hc
    rw [← Bool.not_eq_true, shaped_repair h hf hl]
    exact hc
  refine ⟨a, b, ⟨henough, ?_, ?_, ?_, ?_, ?_, ?_⟩, hbounds⟩
  · rw [hknown]
    exact hbounds
  · intro c hac hcb
    have hc := hplain c ⟨a, ha, hac⟩ ⟨b, hb, hcb⟩
    exact .inl ((shaped_repair h (hin c hc).1 (hin c hc).2).mpr hc)
  · intro c hc
    by_cases hf : first ≤ c
    · refine hunread c hf (by omega) fun hmem => ?_
      have := hbounds c hmem
      omega
    · rw [shaped_outside h (by omega)]
      exact h.left c (by omega)
  · by_cases hl : b + 1 ≤ last
    · refine hunread (b + 1) (by omega) hl fun hmem => ?_
      have := hbounds (b + 1) hmem
      omega
    · rw [shaped_outside h (by omega), show b + 1 = last + 1 by omega]
      exact h.right
  · rwa [count_votes h]
  · rwa [count_votes h, votes_repair h, List.length_map]

theorem again_iff (h : Carries s row first last offset) :
    repairMonthHeaders s (repairMonthHeaders s row) = repairMonthHeaders s row ↔
      Settled s row first last offset := by
  constructor
  · intro hagain k hk hplain hfour hagree c cell label hcell hf hl hparse hagrees
    obtain ⟨first', last', h', hbounds⟩ := carries_again h hplain hfour hagree
    obtain ⟨hmonth, hlong, hyear⟩ := hagrees.read hparse
    have hletters : lettersOf s cell = label.letters := by simp [lettersOf, hparse]
    have hc := hbounds c (mem_reread.mpr ⟨cell, hcell, hf, hl, hletters ▸ hlong⟩)
    have hsame : relabel s offset c cell = cell := by simp [relabel, hparse, hagrees]
    have hat := repair_inside h hf hl hcell
    rw [hsame] at hat
    have hat' := repair_inside h' hc.1 hc.2 hat
    rw [hagain, hat, Option.some.injEq] at hat'
    rcases relabel_cases s (offset + 1200 * (20 - k)) c cell with
      ⟨label', hparse', hagrees', -⟩ | ⟨-, hnew⟩
    · rw [hparse, Option.some.injEq] at hparse'
      subst hparse'
      have hy := hagrees.2
      rw [hagrees'.2, Option.some.injEq] at hy
      omega
    · have hm : ((offset + 1200 * (20 - k) + c) % 12).toNat = ((offset + c) % 12).toNat := by omega
      have hy : (offset + 1200 * (20 - k) + c) / 12 % 100 = (offset + c) / 12 % 100 := by omega
      rw [← hat', hm, hletters, monthLabel, hy] at hnew
      exact hnew
  · intro hsettled
    cases hrun : run s (repairMonthHeaders s row) with
    | none => exact repair_of_none hrun
    | some r =>
      have h' := run_eq_some_iff.mp hrun
      have hvote : r.2.2 ∈ votes s (repairMonthHeaders s row) :=
        List.count_pos_iff.mp (Nat.lt_of_lt_of_le (by decide) h'.support)
      obtain ⟨k, hk⟩ := mem_votes_repair h hvote
      refine List.ext_getElem? fun c => ?_
      by_cases hin : r.1 ≤ c ∧ c ≤ r.2.1
      · obtain ⟨cell, hcell, hf, hl, hshort⟩ := mem_reread.mp (mem_reread_of_run h h' hin.1 hin.2)
        have hat := repair_inside h hf hl hcell
        rw [repair_inside h' hin.1 hin.2 hat, hat, hk]
        refine congrArg some (relabel_relabel (20 - k) hshort fun label hparse hagrees hne => ?_)
        refine hsettled k (by omega) (fun x hfrom hto => ?_) ?_ ?_ c cell label
          hcell hf hl hparse hagrees
        · obtain ⟨a, ha, hax⟩ := hfrom
          obtain ⟨b, hb, hxb⟩ := hto
          rw [← known_repair h] at ha hb
          exact mem_reread_of_run h h' ((h'.within a ha).1.trans hax) (hxb.trans (h'.within b hb).2)
        · rw [← count_votes h, ← hk]
          exact h'.support
        · have hagree := h'.agree
          rwa [hk, count_votes h, votes_repair h, List.length_map] at hagree
      · exact repair_outside h' hin

variable (s row) in
/-- The row is as long as before, a label that spells a month still spells it, words are left alone
and a second repair changes nothing. -/
structure LegibleKept : Prop where
  length : (repairMonthHeaders s row).length = row.length
  spelled : ∀ (c : Nat) cell m yy, row[c]? = some cell → Spells cell m yy →
    ∃ cell', (repairMonthHeaders s row)[c]? = some cell' ∧ Spells cell' m yy
  other : ∀ (c : Nat) cell, row[c]? = some cell → trim s.toTables cell ≠ [] →
    monthCell s cell = none → (repairMonthHeaders s row)[c]? = some cell
  again : repairMonthHeaders s (repairMonthHeaders s row) = repairMonthHeaders s row

/-- The repair keeps what is legible exactly where every label that spells a month agrees with the
vote, and no other century than the one from 2000 wins the next one over labels written freely. -/
theorem legible_kept_iff (s : HeaderTools) (row : List Text) : LegibleKept s row ↔
    ∀ first last offset, Carries s row first last offset →
      Unanimous row first last offset ∧ Settled s row first last offset := by
  constructor
  · intro hkept first last offset h
    exact ⟨(spelled_iff h).mp hkept.spelled, (again_iff h).mp hkept.again⟩
  · intro hall
    cases hrun : run s row with
    | none =>
      have hsame := repair_of_none hrun
      refine ⟨by rw [hsame], fun c cell m yy hcell hspells => ?_, fun c cell => other_kept s, ?_⟩
      · exact ⟨cell, by rwa [hsame], hspells⟩
      · rw [hsame, hsame]
    | some r =>
      have h := run_eq_some_iff.mp hrun
      obtain ⟨hunanimous, hsettled⟩ := hall _ _ _ h
      exact ⟨repair_length s row, (spelled_iff h).mpr hunanimous, fun c cell => other_kept s,
        (again_iff h).mpr hsettled⟩

theorem exact_le_one (a b : Text) : (if a = b then 1 else 0 : ℚ) ≤ 1 := by
  split <;> norm_num

theorem exact_eq_one_iff (a b : Text) : (if a = b then 1 else 0 : ℚ) = 1 ↔ a = b := by
  split <;> simp_all

theorem ascii_decimal_lt (c : Char) (n : Nat) (h : asciiTables.decimal c = some n) : n < 10 := by
  simp only [asciiTables, ascii, Option.ite_none_right_eq_some, Option.some.injEq] at h
  have hzero : '0'.toNat = 48 := rfl
  have hnine := digit_toNat h.1
  omega

/-- Two sequences are similar where they are equal. -/
def exactTools : HeaderTools where
  toTables := asciiTables
  ratio := fun a b => if a = b then 1 else 0
  ratio_le_one := exact_le_one
  ratio_eq_one_iff := exact_eq_one_iff
  decimal_ascii := fun _ _ => rfl
  decimal_lt := ascii_decimal_lt

/-- The months of two quarters, but for May. -/
def withoutMay : List Text :=
  ["Plant", "Jan-19", "Feb-19", "Mar-19", "Apr-19", "Jun-19"].map String.toList

theorem june_becomes_may : ¬ LegibleKept exactTools withoutMay := by
  intro h
  have hjune : Spells "Jun-19".toList 5 19 :=
    ⟨by decide, "Jun".toList, '1', '9', rfl, .inr (by decide +kernel), rfl, rfl, rfl⟩
  have hmay : Spells "May-19".toList 4 19 :=
    ⟨by decide, "May".toList, '1', '9', rfl, .inr (by decide +kernel), rfl, rfl, rfl⟩
  have hout : (repairMonthHeaders exactTools withoutMay)[5]? = some "May-19".toList := by
    decide +kernel
  obtain ⟨cell, hcell, hspells⟩ := h.spelled 5 _ 5 19 rfl hjune
  rw [hout, Option.some.injEq] at hcell
  exact absurd (hmay.unique (hcell ▸ hspells)).1 (by decide)

end Legible

end MonthHeaders

end KnowledgeBase.Artifact
