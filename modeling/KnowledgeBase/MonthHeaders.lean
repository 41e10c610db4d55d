import KnowledgeBase.Majority
import KnowledgeBase.Normalization

/-! The row of months over a table read by OCR. The labels that read vote on the month the run
starts with, and the others are written from it. -/

namespace KnowledgeBase.Artifact

open Regex Recognizers Majority

/-- The similarity of two sequences and the decimals of Unicode, with what is documented of them. -/
structure HeaderTools extends Tables where
  ratio : Text → Text → ℚ
  ratio_le_one : ∀ a b, ratio a b ≤ 1
  ratio_eq_one_iff : ∀ a b, ratio a b = 1 ↔ a = b
  decimal_ascii : ∀ c : Char, c.toNat < 128 →
    decimal c = if asciiDigit c then some (c.toNat - '0'.toNat) else none
  decimal_lt : ∀ c n, decimal c = some n → n < 10

namespace MonthHeaders

def months : List Text :=
  ["january", "february", "march", "april", "may", "june", "july", "august",
    "september", "october", "november", "december"].map String.toList

def full (month : Nat) : Text := months.getD month []

def short (month : Nat) : Text := (full month).take 3

/-- The letters are the name of the month, in full or short. -/
def Names (letters : Text) (month : Nat) : Prop :=
  letters.map Char.toLower = full month ∨ letters.map Char.toLower = short month

instance (letters : Text) (month : Nat) : Decidable (Names letters month) :=
  inferInstanceAs (Decidable (_ ∨ _))

variable (s : HeaderTools)

def isSeparator (c : Char) : Bool := ['-', '–', '\x27', '’'].contains c || s.isSpace c

/-- What `_MONTH_CELL` captures: anything short, as little of it as possible, before a year. -/
def monthCell (cell : Text) : Option (Text × Text) :=
  let digit := Recognizers.digit s.toUnicode
  let name := upTo (cls fun c => c ≠ '\n') 12
  let year := alt (times digit 4) (rep digit 1 2)
  let rest := seq (star (cls s.isSpace)) TextCleaner.textEnd
  ((ends cell (star (cls s.isSpace)) 0).flatMap fun i =>
    ((ends cell name i).reverse).flatMap fun j =>
      (ends cell (star (cls (isSeparator s))) j).flatMap fun k =>
        (ends cell year k).flatMap fun e =>
          (ends cell rest e).map fun _ => (slice cell i j, slice cell k e)).head?

def maxDamagedLetters : Nat := 6

def readable (letters : Text) : Text :=
  (letters.map Char.toLower).map fun c => if c = '0' then 'o' else c

def candidates : List (Nat × Text) :=
  months.zipIdx.flatMap fun (name, i) => [(i, name), (i, name.take 3)]

def closer (text : Text) (best : Option Nat × ℚ) (candidate : Nat × Text) : Option Nat × ℚ :=
  let ratio := s.ratio text candidate.2
  if best.2 < ratio then (some candidate.1, ratio) else best

def monthIndex (letters : Text) : Option Nat :=
  let text := readable letters
  if text.length < 2 then none
  else
    let best := candidates.foldl (closer s text) (none, 0)
    if 3 / 4 ≤ best.2 then best.1 else none

def capitalize : Text → Text
  | [] => []
  | c :: cs => c.toUpper :: cs.map Char.toLower

def useShort (letters : Text) (month : Nat) : Bool :=
  let text := readable letters
  text ≠ [] && s.ratio text (full month) ≤ s.ratio text (short month)

def labelName (letters : Text) (month : Nat) : Text :=
  capitalize (if useShort s letters month then short month else full month)

/-- `f"{n:02d}"` of a number below a hundred. -/
def twoDigits (n : Nat) : Text := [Nat.digitChar (n / 10), Nat.digitChar (n % 10)]

def monthLabel (letters : Text) (month : Nat) (year : Int) : Text :=
  labelName s letters month ++ '-' :: twoDigits (year % 100).toNat

/-- What was read of a cell shaped like a month. -/
structure Label where
  letters : Text
  month : Option Nat
  year : Option Nat

def number (digits : Text) : Nat := digits.foldl (fun n c => 10 * n + s.value c) 0

def parse (cell : Text) : Option Label :=
  (monthCell s cell).bind fun (name, digits) =>
    let letters := name.filter fun c => asciiLetter c || asciiDigit c
    if maxDamagedLetters < letters.length then none
    else some { letters, month := monthIndex s letters,
                year := if digits.length = 2 then some (2000 + number s digits) else none }

variable (row : List Text)

def labelAt (c : Nat) : Option Label := row[c]?.bind (parse s)

def shaped (c : Nat) : Bool := (labelAt s row c).isSome

def blank (c : Nat) : Bool := trim s.toTables (row.getD c []) = []

/-- The columns whose month reads. -/
def known : List Nat :=
  (List.range row.length).filter fun c => (labelAt s row c).any (·.month.isSome)

/-- Where the run would start for the month and the year of a column. -/
def start (c : Nat) : Option Int :=
  (labelAt s row c).bind fun label =>
    label.month.bind fun month => label.year.map fun (year : Nat) => (year * 12 + month : Int) - c

def votes : List Int := (known s row).filterMap (start s row)

def extendLeft : Nat → Nat
  | 0 => 0
  | c + 1 => if shaped s row c then extendLeft c else c + 1

/-- The second argument is how many columns there may be yet. -/
def extendRight (c : Nat) : Nat → Nat
  | 0 => c
  | left + 1 => if shaped s row (c + 1) then extendRight (c + 1) left else c

/-- The columns of the run and where its months start, where the labels that read agree on it. -/
def run : Option (Nat × Nat × Int) :=
  let known := known s row
  if known.length < 4 then none
  else
    let first := known.min?.getD 0
    let last := known.max?.getD 0
    if (List.range' first (last + 1 - first)).any (fun c => !shaped s row c && !blank s row c) then
      none
    else
      (winner (votes s row)).bind fun offset =>
        let support := (votes s row).count offset
        if support < 4 ∨ 4 * support < 3 * (votes s row).length then none
        else some (extendLeft s row first, extendRight s row last row.length, offset)

/-- The label says the month and the year the run gives its column. -/
def Agrees (offset : Int) (c : Nat) (label : Label) : Prop :=
  Names label.letters ((offset + c) % 12).toNat ∧
    label.year.map Nat.cast = some ((offset + c) / 12)

instance (offset : Int) (c : Nat) (label : Label) : Decidable (Agrees offset c label) :=
  inferInstanceAs (Decidable (_ ∧ _))

def lettersOf (cell : Text) : Text := ((parse s cell).map (·.letters)).getD []

/-- The label of a column of the run. -/
def relabel (offset : Int) (c : Nat) (cell : Text) : Text :=
  if (parse s cell).any (fun label => Agrees offset c label) then cell
  else monthLabel s (lettersOf s cell) ((offset + c) % 12).toNat ((offset + c) / 12)

def repairMonthHeaders : List Text :=
  match run s row with
  | none => row
  | some (first, last, offset) =>
    row.zipIdx.map fun (cell, c) => if first ≤ c ∧ c ≤ last then relabel s offset c cell else cell

section Names

theorem names_unique {letters : Text} {m n : Nat} (hm : m < 12) (hn : n < 12)
    (h : Names letters m) (h' : Names letters n) : m = n := by
  have hall : ∀ m < 12, ∀ n < 12, full m = full n ∨ full m = short n ∨ short m = full n ∨
      short m = short n → m = n := by decide +kernel
  refine hall m hm n hn ?_
  rcases h with h | h <;> rcases h' with h' | h'
  · exact .inl (h.symm.trans h')
  · exact .inr (.inl (h.symm.trans h'))
  · exact .inr (.inr (.inl (h.symm.trans h')))
  · exact .inr (.inr (.inr (h.symm.trans h')))

theorem full_letters {m : Nat} (hm : m < 12) {c : Char} (hc : c ∈ full m) : 'a' ≤ c ∧ c ≤ 'z' := by
  have hall : (months.all fun name => name.all fun c => 'a' ≤ c && c ≤ 'z') = true := by
    decide +kernel
  have hmem : full m ∈ months := by
    rw [full, List.getD_eq_getElem _ _ hm]
    exact List.getElem_mem hm
  simpa using List.all_eq_true.mp (List.all_eq_true.mp hall _ hmem) c hc

theorem Names.letter {letters : Text} {m : Nat} (hm : m < 12) (h : Names letters m) {c : Char}
    (hc : c ∈ letters.map Char.toLower) : 'a' ≤ c ∧ c ≤ 'z' := by
  rcases h with h | h
  · exact full_letters hm (h ▸ hc)
  · exact full_letters hm (List.mem_of_mem_take (h ▸ hc))

theorem Names.readable {letters : Text} {m : Nat} (hm : m < 12) (h : Names letters m) :
    readable letters = letters.map Char.toLower := by
  refine (List.map_congr_left fun c hc => ?_).trans (List.map_id _)
  have hle := (h.letter hm hc).1
  rw [if_neg (by rintro rfl; exact absurd hle (by decide)), id]

theorem closer_best {text : Text} {best : Option Nat × ℚ} {candidate : Nat × Text}
    (hmem : candidate ∈ candidates)
    (h : best.2 ≤ 1 ∧ (best.2 = 1 → ∃ i, best.1 = some i ∧ (i, text) ∈ candidates)) :
    (closer s text best candidate).2 ≤ 1 ∧ ((closer s text best candidate).2 = 1 →
      ∃ i, (closer s text best candidate).1 = some i ∧ (i, text) ∈ candidates) := by
  unfold closer
  dsimp only
  split
  · refine ⟨s.ratio_le_one _ _, fun hone => ⟨candidate.1, rfl, ?_⟩⟩
    rw [(s.ratio_eq_one_iff _ _).mp hone]
    exact hmem
  · exact h

theorem closer_le (text : Text) (best : Option Nat × ℚ) (candidate : Nat × Text) :
    best.2 ≤ (closer s text best candidate).2 ∧
      s.ratio text candidate.2 ≤ (closer s text best candidate).2 := by
  unfold closer
  dsimp only
  split
  · rename_i h
    exact ⟨le_of_lt h, le_rfl⟩
  · rename_i h
    exact ⟨le_rfl, not_lt.mp h⟩

theorem foldl_closer {text : Text} {list : List (Nat × Text)} (hlist : list ⊆ candidates)
    (best : Option Nat × ℚ)
    (h : best.2 ≤ 1 ∧ (best.2 = 1 → ∃ i, best.1 = some i ∧ (i, text) ∈ candidates)) :
    ((list.foldl (closer s text) best).2 = 1 →
      ∃ i, (list.foldl (closer s text) best).1 = some i ∧ (i, text) ∈ candidates) ∧
    (list.foldl (closer s text) best).2 ≤ 1 ∧ best.2 ≤ (list.foldl (closer s text) best).2 ∧
    ∀ candidate ∈ list, s.ratio text candidate.2 ≤ (list.foldl (closer s text) best).2 := by
  induction list generalizing best with
  | nil => exact ⟨h.2, h.1, le_rfl, nofun⟩
  | cons candidate list ih =>
    obtain ⟨hmem, hlist⟩ := List.cons_subset.mp hlist
    obtain ⟨hone, hle, hbest, hall⟩ := ih hlist _ (closer_best s hmem h)
    obtain ⟨hstep, hratio⟩ := closer_le s text best candidate
    exact ⟨hone, hle, hstep.trans hbest,
      List.forall_mem_cons.mpr ⟨hratio.trans hbest, hall⟩⟩

/-- The name of a month is read as that month, in full or short. -/
theorem monthIndex_of_names {letters : Text} {m : Nat} (hm : m < 12) (h : Names letters m) :
    monthIndex s letters = some m := by
  have hread := h.readable hm
  have hmonth : ∀ m < 12, (m, full m) ∈ candidates ∧ (m, short m) ∈ candidates ∧
      2 ≤ (full m).length ∧ 2 ≤ (short m).length := by decide +kernel
  have hname : ∀ p ∈ candidates, p.1 < 12 ∧ (p.2 = full p.1 ∨ p.2 = short p.1) := by decide +kernel
  have htext : (m, readable letters) ∈ candidates ∧ 2 ≤ (readable letters).length := by
    obtain ⟨hf, hs, hf2, hs2⟩ := hmonth m hm
    rw [hread]
    rcases h with h | h <;> rw [h]
    · exact ⟨hf, hf2⟩
    · exact ⟨hs, hs2⟩
  obtain ⟨hone, hle, -, hall⟩ := @foldl_closer s (readable letters) candidates
    (List.Subset.refl _) (none, 0) ⟨by norm_num, by norm_num⟩
  have hbest : (candidates.foldl (closer s (readable letters)) (none, 0)).2 = 1 := by
    refine le_antisymm hle ?_
    have := hall _ htext.1
    rwa [(s.ratio_eq_one_iff _ _).mpr rfl] at this
  obtain ⟨i, hi, hmem⟩ := hone hbest
  obtain ⟨hlt, hnames⟩ := hname _ hmem
  have him : i = m := names_unique hlt hm (by rwa [Names, ← hread]) h
  rw [monthIndex, if_neg (by omega), if_pos (by rw [hbest]; norm_num), hi, him]

end Names

section Spelling

theorem toNat_of_le {a c b : Char} (h1 : a ≤ c) (h2 : c ≤ b) : a.toNat ≤ c.toNat ∧ c.toNat ≤ b.toNat :=
  ⟨UInt32.le_iff_toNat_le.mp h1, UInt32.le_iff_toNat_le.mp h2⟩

theorem letter_toNat {c : Char} (h : asciiLetter c = true) :
    (65 ≤ c.toNat ∧ c.toNat ≤ 90) ∨ (97 ≤ c.toNat ∧ c.toNat ≤ 122) := by
  simp only [asciiLetter, asciiUpper, Bool.or_eq_true, Bool.and_eq_true, decide_eq_true_eq] at h
  rcases h with h | h
  · exact .inl (toNat_of_le h.1 h.2)
  · exact .inr (toNat_of_le h.1 h.2)

theorem digit_toNat {c : Char} (h : asciiDigit c = true) : 48 ≤ c.toNat ∧ c.toNat ≤ 57 := by
  simp only [asciiDigit, Bool.and_eq_true, decide_eq_true_eq] at h
  exact toNat_of_le h.1 h.2

theorem isSpace_of_toNat {c : Char} (h1 : 33 ≤ c.toNat) (h2 : c.toNat ≤ 126) : s.isSpace c = false :=
  s.isSpace_graphic c (UInt32.le_iff_toNat_le.mpr h1) (UInt32.le_iff_toNat_le.mpr h2)

theorem isDigit_eq {c : Char} (h : c.toNat < 128) : s.isDigit c = asciiDigit c := by
  rw [Unicode.isDigit, s.decimal_ascii c h]
  split <;> simp_all

theorem letter_of_toLower {c : Char} (h : 'a' ≤ c.toLower ∧ c.toLower ≤ 'z') :
    asciiLetter c = true := by
  rw [Char.toLower] at h
  split at h
  · rename_i hupper
    have hupper : asciiUpper c = true := by
      rw [asciiUpper, Bool.and_eq_true, decide_eq_true_eq, decide_eq_true_eq]
      exact ⟨hupper.1, hupper.2⟩
    rw [asciiLetter, hupper, Bool.true_or]
  · simp [asciiLetter, h]

theorem letter_classes {c : Char} (h : asciiLetter c = true) :
    s.isSpace c = false ∧ s.isDigit c = false ∧ isSeparator s c = false ∧ c ≠ '\n' := by
  have hnat := letter_toNat h
  have hspace : s.isSpace c = false := isSpace_of_toNat s (by omega) (by omega)
  refine ⟨hspace, ?_, ?_, ?_⟩
  · rw [isDigit_eq s (by omega)]
    by_contra hdigit
    have := digit_toNat (by simpa using hdigit)
    omega
  · simp only [isSeparator, hspace, Bool.or_false, List.contains_cons, List.contains_nil,
      Bool.or_eq_false_iff, beq_eq_false_iff_ne, ne_eq, and_true]
    refine ⟨?_, ?_, ?_, ?_⟩ <;> rintro rfl <;> exact absurd h (by decide)
  · rintro rfl
    exact absurd h (by decide)

theorem digit_classes {c : Char} (h : asciiDigit c = true) :
    s.isSpace c = false ∧ s.isDigit c = true ∧ isSeparator s c = false := by
  have hnat := digit_toNat h
  have hspace : s.isSpace c = false := isSpace_of_toNat s (by omega) (by omega)
  refine ⟨hspace, (isDigit_eq s (by omega)).trans h, ?_⟩
  simp only [isSeparator, hspace, Bool.or_false, List.contains_cons, List.contains_nil,
    Bool.or_eq_false_iff, beq_eq_false_iff_ne, ne_eq, and_true]
  refine ⟨?_, ?_, ?_, ?_⟩ <;> rintro rfl <;> exact absurd h (by decide)

/-- A word, a hyphen and two digits are captured apart. -/
theorem monthCell_of {name : Text} {d e : Char} (hname : ∀ c ∈ name, asciiLetter c = true)
    (hne : name ≠ []) (hlen : name.length ≤ 12) (hd : asciiDigit d = true)
    (he : asciiDigit e = true) : monthCell s (name ++ ['-', d, e]) = some (name, [d, e]) := by
  obtain ⟨cell, hcell⟩ : ∃ cell, cell = name ++ ['-', d, e] := ⟨_, rfl⟩
  have hletter : ∀ j < name.length, ∃ c, cell[j]? = some c ∧ asciiLetter c = true := by
    intro j hj
    exact ⟨name[j], by rw [hcell, List.getElem?_append_left hj, List.getElem?_eq_getElem hj],
      hname _ (List.getElem_mem hj)⟩
  have hafter : ∀ j, cell[name.length + j]? = ['-', d, e][j]? := by
    intro j
    rw [hcell, List.getElem?_append_right (by omega), Nat.add_sub_cancel_left]
  have h0 : cell[name.length]? = some '-' := hafter 0
  have h1 : cell[name.length + 1]? = some d := hafter 1
  have h2 : cell[name.length + 1 + 1]? = some e := hafter 2
  have h3 : cell[name.length + 1 + 1 + 1]? = none := hafter 3
  obtain ⟨-, hd1, hd2⟩ := digit_classes s hd
  obtain ⟨-, he1, -⟩ := digit_classes s he
  have hhyphen : isSeparator s '-' = true := by simp [isSeparator]
  have hstart : ends cell (star (cls s.isSpace)) 0 = [0] := by
    obtain ⟨c, hc, hl⟩ := hletter 0 (List.length_pos_iff.mpr hne)
    exact ends_star_stop (by simp [hc, (letter_classes s hl).1])
  rw [← hcell, monthCell, hstart]
  simp only [List.flatMap_cons, List.flatMap_nil, List.append_nil]
  refine head?_lazy hlen (fun m hm => ?_) ?_
  · obtain ⟨c, hc, hl⟩ := hletter m hm
    obtain ⟨-, hdigit, hsep, hbreak⟩ := letter_classes s hl
    rw [Nat.zero_add, ends_star_stop (by simp [hc, hsep])]
    simp [ends, Recognizers.digit, times, rep, hc, hdigit, hbreak]
  · have hyear : ends cell (alt (times (Recognizers.digit s.toUnicode) 4)
        (rep (Recognizers.digit s.toUnicode) 1 2)) (name.length + 1) =
        [name.length + 1 + 1 + 1, name.length + 1 + 1] := by
      simp [ends, Recognizers.digit, times, rep, upTo, opt, h1, h2, h3, hd1, he1]
    have hend : ends cell (star (cls s.isSpace)) (name.length + 1 + 1 + 1) =
        [name.length + 1 + 1 + 1] := ends_star_stop (by simp [h3])
    have hrest : ends cell (seq (star (cls s.isSpace)) TextCleaner.textEnd)
        (name.length + 1 + 1 + 1) = [name.length + 1 + 1 + 1] := by
      rw [ends, hend]
      simp [TextCleaner.textEnd, ends, hcell]
    rw [Nat.zero_add, ends_star_step (by simp [h0, hhyphen]),
      ends_star_stop (by simp [h1, hd2])]
    simp only [List.flatMap_append, List.flatMap_cons, hyear, hrest, List.map_cons, List.cons_append,
      List.head?_cons, Option.some.injEq, Prod.mk.injEq]
    constructor
    · simp [slice, hcell]
    · have htake : (cell.take (name.length + 1 + 1 + 1)).drop (name.length + 1) = [d, e] := by
        rw [hcell, List.take_of_length_le (by simp)]
        simp
      exact htake

end Spelling

section Labels

/-- The name chosen for the label is too long to be read again. -/
def long (letters : Text) (month : Nat) : Bool :=
  !useShort s letters month && maxDamagedLetters < (full month).length

variable {s} {cell letters name : Text} {m n yy zz : Nat} {d e : Char}

/-- The cell is exactly the name of the month, in full or short, a hyphen and a two-digit year. -/
def Spells (cell : Text) (month year : Nat) : Prop :=
  month < 12 ∧ ∃ name d e, cell = name ++ ['-', d, e] ∧ Names name month ∧ asciiDigit d = true ∧
    asciiDigit e = true ∧ year = 10 * (d.toNat - 48) + (e.toNat - 48)

theorem Spells.unique (h : Spells cell m yy) (h' : Spells cell n zz) : m = n ∧ yy = zz := by
  obtain ⟨hm, name, d, e, rfl, hname, -, -, rfl⟩ := h
  obtain ⟨hn, name', d', e', heq, hname', -, -, rfl⟩ := h'
  obtain ⟨rfl, htail⟩ := List.append_inj' heq rfl
  simp only [List.cons.injEq, true_and, and_true] at htail
  obtain ⟨rfl, rfl⟩ := htail
  exact ⟨names_unique hm hn hname hname', rfl⟩

theorem name_lengths (hm : m < 12) : 3 ≤ (full m).length ∧ (full m).length ≤ 9 ∧
    (short m).length = 3 := by
  have hall : ∀ m < 12, 3 ≤ (full m).length ∧ (full m).length ≤ 9 ∧ (short m).length = 3 := by
    decide +kernel
  exact hall m hm

theorem Names.length (h : Names name m) : name.length = (full m).length ∨
    name.length = (short m).length := by
  rw [← List.length_map (f := Char.toLower)]
  exact h.imp (congrArg _) (congrArg _)

/-- What is parsed of a cell that spells a month. -/
theorem parse_of_names (hm : m < 12) (h : Names name m) (hd : asciiDigit d = true)
    (he : asciiDigit e = true) : parse s (name ++ ['-', d, e]) =
      if maxDamagedLetters < name.length then none
      else some { letters := name, month := some m,
                  year := some (2000 + (10 * (d.toNat - 48) + (e.toNat - 48))) } := by
  have hletters : ∀ c ∈ name, asciiLetter c = true := fun c hc =>
    letter_of_toLower (h.letter hm (List.mem_map_of_mem hc))
  have hlengths := name_lengths hm
  have hlen : 3 ≤ name.length ∧ name.length ≤ 12 := by
    rcases h.length with h | h <;> omega
  have hfilter : name.filter (fun c => asciiLetter c || asciiDigit c) = name :=
    List.filter_eq_self.mpr fun c hc => by rw [hletters c hc, Bool.true_or]
  have hvalue : ∀ c, asciiDigit c = true → s.value c = c.toNat - 48 := by
    intro c hc
    have := digit_toNat hc
    rw [Unicode.value, s.decimal_ascii c (by omega), if_pos hc]
    rfl
  have hnumber : number s [d, e] = 10 * (d.toNat - 48) + (e.toNat - 48) := by
    simp [number, hvalue d hd, hvalue e he]
  have hne : name ≠ [] := List.length_pos_iff.mp (by omega)
  rw [parse, monthCell_of s hletters hne hlen.2 hd he]
  simp only [Option.bind_some, hfilter, hnumber, monthIndex_of_names s hm h, List.length_cons,
    List.length_nil, if_true]

theorem lower_labelName (hm : m < 12) : (labelName s letters m).map Char.toLower =
    if useShort s letters m = true then short m else full m := by
  have hall : ∀ m < 12, (capitalize (full m)).map Char.toLower = full m ∧
      (capitalize (short m)).map Char.toLower = short m := by decide +kernel
  rw [labelName]
  split
  · exact (hall m hm).2
  · exact (hall m hm).1

theorem names_labelName (hm : m < 12) : Names (labelName s letters m) m := by
  have h : (labelName s letters m).map Char.toLower = _ := lower_labelName hm
  split at h
  · exact .inr h
  · exact .inl h

theorem digitChar_digit (hn : n < 10) : asciiDigit (Nat.digitChar n) = true ∧
    (Nat.digitChar n).toNat - 48 = n := by
  have hall : ∀ n < 10, asciiDigit (Nat.digitChar n) = true ∧ (Nat.digitChar n).toNat - 48 = n := by
    decide +kernel
  exact hall n hn

theorem spells_monthLabel (hm : m < 12) (year : Int) :
    Spells (monthLabel s letters m year) m (year % 100).toNat := by
  obtain ⟨ht, htens⟩ := digitChar_digit (n := (year % 100).toNat / 10) (by omega)
  obtain ⟨hu, hunits⟩ := digitChar_digit (n := (year % 100).toNat % 10) (by omega)
  exact ⟨hm, _, _, _, rfl, names_labelName hm, ht, hu, by rw [htens, hunits]; omega⟩

end Labels

section Choice

variable {s} {letters name : Text} {m : Nat}

theorem capitalize_length (name : Text) : (capitalize name).length = name.length := by
  cases name <;> simp [capitalize]

theorem long_iff (hm : m < 12) :
    long s letters m = true ↔ maxDamagedLetters < (labelName s letters m).length := by
  have hlengths := name_lengths hm
  rw [labelName, capitalize_length, long]
  cases useShort s letters m with
  | false => simp
  | true => simp [hlengths.2.2, maxDamagedLetters]

/-- A short name is chosen again for itself. -/
theorem useShort_short (hm : m < 12) (h : letters.map Char.toLower = short m) :
    useShort s letters m = true := by
  have hlengths := name_lengths hm
  have hread : readable letters = short m := (Names.readable hm (.inr h)).trans h
  have hne : short m ≠ [] := List.length_pos_iff.mp (by omega)
  rw [useShort, hread, (s.ratio_eq_one_iff (short m) (short m)).mpr rfl]
  simpa [hne] using s.ratio_le_one _ _

/-- For a full name the short one is chosen only where they are the same. -/
theorem full_eq_short (hm : m < 12) (h : letters.map Char.toLower = full m)
    (hs : useShort s letters m = true) : full m = short m := by
  have hread : readable letters = full m := (Names.readable hm (.inl h)).trans h
  rw [useShort, hread, (s.ratio_eq_one_iff (full m) (full m)).mpr rfl] at hs
  have hle : (1 : ℚ) ≤ s.ratio (full m) (short m) := by
    simpa using (Bool.and_eq_true_iff.mp hs).2
  exact (s.ratio_eq_one_iff _ _).mp (le_antisymm (s.ratio_le_one _ _) hle)

theorem labelName_labelName (hm : m < 12) :
    labelName s (labelName s letters m) m = labelName s letters m := by
  have hlower : (labelName s letters m).map Char.toLower = _ := lower_labelName hm
  have hagain : labelName s (labelName s letters m) m =
      capitalize (if useShort s (labelName s letters m) m = true then short m else full m) := rfl
  rw [hagain]
  by_cases hs : useShort s letters m = true
  · rw [if_pos hs] at hlower
    rw [if_pos (useShort_short hm hlower), labelName, if_pos hs]
  · rw [if_neg hs] at hlower
    have hname : labelName s letters m = capitalize (full m) := by rw [labelName, if_neg hs]
    split
    · rename_i h
      rw [hname, full_eq_short hm hlower h]
    · exact hname.symm

theorem monthLabel_labelName (hm : m < 12) {year year' : Int} (h : year' % 100 = year % 100) :
    monthLabel s (labelName s letters m) m year' = monthLabel s letters m year := by
  rw [monthLabel, labelName_labelName hm, h, monthLabel]

/-- The name of a month that is short enough to be read is not written longer. -/
theorem Names.not_long (hm : m < 12) (h : Names letters m)
    (hlen : letters.length ≤ maxDamagedLetters) : long s letters m = false := by
  rcases h with h | h
  · have hfull : (full m).length ≤ maxDamagedLetters := by rwa [← h, List.length_map]
    simp [long, Nat.not_lt.mpr hfull]
  · rw [long, useShort_short hm h]
    rfl

end Choice

end MonthHeaders

end KnowledgeBase.Artifact
