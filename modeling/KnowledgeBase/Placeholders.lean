import KnowledgeBase.CitationMarkers
import KnowledgeBase.Redaction
import KnowledgeBase.Substitution

/-! A redacted request can be read back. A placeholder stands for one value under one label, and no
two placeholders overlap, so the texts are what comes of writing the values back. -/

namespace KnowledgeBase

open Splice Excision Substitution

/-- The values with their labels. -/
def foundValues (u : Unicode) (texts : List Text) : Set (String × Text) :=
  {p | ∃ text ∈ texts, ∃ f ∈ findAll u text, (f.label, f.text) = p}

/-- The placeholders in the redacted texts. -/
def usedPlaceholders (u : Unicode) (texts : List Text) : Set Text :=
  {ph | (∃ r ∈ recognizers u, ∃ n, ph = placeholder r.label n) ∧
    ∃ out ∈ (redact u texts).1, ph <:+: out}

/-- Every placeholder with the value it stands for. -/
def Numbering.meanings (st : Numbering) : List (Text × Text) :=
  st.assigned.flatMap fun entry => entry.2.map fun v => (v.2, v.1)

/-- Every placeholder is replaced by its value. -/
def Numbering.restore (st : Numbering) (text : Text) : Text := substitute st.meanings 0 text

structure ReadsBack (u : Unicode) (texts : List Text) : Prop where
  bijective : Set.BijOn (numbering u texts).placeholderOf (foundValues u texts) (some '' usedPlaceholders u texts)
  numbered : ∀ m ∈ (redact u texts).2,
    m.placeholders = (List.range' 1 m.count).map (placeholder m.label)
  listed : ∀ ph, ph ∈ usedPlaceholders u texts ↔ ∃ m ∈ (redact u texts).2, ph ∈ m.placeholders
  restored : (redact u texts).1.map (numbering u texts).restore = texts

/-- No text has a placeholder in it. -/
def Unmarked (u : Unicode) (texts : List Text) : Prop :=
  ∀ text ∈ texts, ∀ r ∈ recognizers u, ∀ n, ¬ placeholder r.label n <:+: text

section Words

/-- A label and a number, as a placeholder has them. -/
def tag (label : String) (n : Nat) : Text := label.toList ++ '_' :: AnswerService.printed n

theorem placeholder_eq_word (label : String) (n : Nat) :
    placeholder label n = word '<' '>' (tag label n) := by
  simp [placeholder, word, tag, AnswerService.printed]
  rfl

theorem printed_inj {n k : Nat} (h : AnswerService.printed n = AnswerService.printed k) : n = k := by
  rw [AnswerService.printed, AnswerService.printed, Nat.toString_eq_repr, Nat.toString_eq_repr,
    Nat.toList_repr, Nat.toList_repr] at h
  have hread := congrArg (fun ds => Nat.ofDigitChars 10 ds 0) h
  simpa only [Nat.ofDigitChars_ten_toDigits] using hread

theorem printed_plain (n : Nat) {c : Char} (hc : asciiDigit c = false) :
    c ∉ AnswerService.printed n := by
  intro h
  rw [AnswerService.printed_digits n c h] at hc
  cases hc

/-- The number begins after the last underscore. -/
theorem tag_inj {label label' : String} {n k : Nat} (h : tag label n = tag label' k) :
    label = label' ∧ n = k := by
  have hno : ∀ n, '_' ∉ AnswerService.printed n := fun n => printed_plain n (by decide)
  rw [tag, tag] at h
  rcases List.append_eq_append_iff.mp h with ⟨v, hl, hr⟩ | ⟨v, hl, hr⟩
  · cases v with
    | nil =>
      rw [List.append_nil] at hl
      exact ⟨String.toList_inj.mp hl.symm, printed_inj (List.cons.inj hr).2⟩
    | cons a v =>
      refine absurd ?_ (hno n)
      rw [(List.cons.inj hr).2]
      simp
  · cases v with
    | nil =>
      rw [List.append_nil] at hl
      exact ⟨String.toList_inj.mp hl, (printed_inj (List.cons.inj hr).2).symm⟩
    | cons a v =>
      refine absurd ?_ (hno k)
      rw [(List.cons.inj hr).2]
      simp

theorem placeholder_inj {label label' : String} {n k : Nat}
    (h : placeholder label n = placeholder label' k) : label = label' ∧ n = k := by
  rw [placeholder_eq_word, placeholder_eq_word, word, word] at h
  exact tag_inj (List.append_inj_left' (List.cons.inj h).2 rfl)

theorem tag_bare {u : Unicode} {r : Recognizer} (hr : r ∈ recognizers u) (n : Nat) :
    Bare '<' '>' (tag r.label n) := by
  have hlabel : '<' ∉ r.label.toList ∧ '>' ∉ r.label.toList := by
    simp only [recognizers, List.mem_cons, List.not_mem_nil, or_false] at hr
    rcases hr with rfl | rfl | rfl | rfl | rfl | rfl | rfl | rfl <;> simp
  have hlt := printed_plain n (c := '<') (by decide)
  have hgt := printed_plain n (c := '>') (by decide)
  constructor
  · simp [tag, hlabel.1, hlt]
  · simp [tag, hlabel.2, hgt]

end Words

section Request

variable {u : Unicode} {texts : List Text} {p q : String × Text} {ph : Text}

theorem mem_foundValues_iff :
    p ∈ foundValues u texts ↔ ((numbering u texts).placeholderOf p).isSome = true :=
  placeholderOf_numbering_isSome_iff.symm

/-- A finding is what stands between its offsets, under the label of a recognizer. -/
theorem finding_spec {text : Text} {f : Finding} (hf : f ∈ findAll u text) :
    (∃ r ∈ recognizers u, f.label = r.label) ∧ f.text = slice text f.start f.stop := by
  rw [mem_findAll, mem_claimed_iff (recognizers_consume u)] at hf
  obtain ⟨pre, r, post, hrs, m, -, -, -, rfl⟩ := hf
  exact ⟨⟨r, by rw [hrs]; simp, rfl⟩, rfl⟩

theorem label_of_found (h : p ∈ foundValues u texts) : ∃ r ∈ recognizers u, p.1 = r.label := by
  obtain ⟨text, -, f, hf, rfl⟩ := h
  exact (finding_spec hf).1

namespace Numbering

variable {st : Numbering}

/-- A value has the number of its place among the values of its label. -/
theorem Counted.placeholderOf_iff (h : st.Counted) : st.placeholderOf p = some ph ↔
    ∃ i, ((st.seen p.1).map Prod.fst)[i]? = some p.2 ∧ ph = placeholder p.1 (i + 1) := by
  obtain ⟨label, value⟩ := p
  have hnumber : ∀ i, (st.seen label)[i]?.map Prod.snd =
      if i < (st.seen label).length then some (placeholder label (i + 1)) else none := by
    intro i
    rw [← List.getElem?_map, h.placeholders, List.getElem?_map]
    by_cases hi : i < (st.seen label).length
    · simp [hi, Nat.add_comm]
    · simp [hi]
  rw [placeholderOf, ← Table.mem_iff_get (h.values label), List.mem_iff_getElem?]
  constructor
  · rintro ⟨i, hi⟩
    have hn := hnumber i
    rw [hi, Option.map_some] at hn
    split at hn
    · exact ⟨i, by simp [hi], by simpa using hn⟩
    · cases hn
  · rintro ⟨i, hi, rfl⟩
    rw [List.getElem?_map] at hi
    obtain ⟨v, hv, hfst⟩ := Option.map_eq_some_iff.mp hi
    refine ⟨i, ?_⟩
    have hn := hnumber i
    obtain ⟨hlt, -⟩ := List.getElem?_eq_some_iff.mp hv
    rw [hv, if_pos hlt, Option.map_some, Option.some.injEq] at hn
    rw [hv, ← hn]
    exact congrArg some (Prod.ext hfst rfl)

theorem Counted.placeholderOf_inj (h : st.Counted) (hp : st.placeholderOf p = some ph)
    (hq : st.placeholderOf q = some ph) : p = q := by
  obtain ⟨i, hi, hpi⟩ := h.placeholderOf_iff.mp hp
  obtain ⟨j, hj, hqj⟩ := h.placeholderOf_iff.mp hq
  obtain ⟨hlabel, hn⟩ := placeholder_inj (hpi.symm.trans hqj)
  obtain rfl : i = j := by omega
  rw [hlabel, hj, Option.some.injEq] at hi
  exact Prod.ext hlabel hi.symm

theorem Counted.seen_of_mem (h : st.Counted) {entry : String × List (Text × Text)}
    (hentry : entry ∈ st.assigned) : st.seen entry.1 = entry.2 := by
  rw [seen, (Table.mem_iff_get h.labels).mp hentry, Option.getD_some]

theorem Counted.mem_meanings (h : st.Counted) {e : Text × Text} :
    e ∈ st.meanings ↔ ∃ label, st.placeholderOf (label, e.2) = some e.1 := by
  simp only [meanings, List.mem_flatMap, List.mem_map, placeholderOf]
  constructor
  · rintro ⟨entry, hentry, v, hv, rfl⟩
    rw [← h.seen_of_mem hentry] at hv
    exact ⟨entry.1, (Table.mem_iff_get (h.values _)).mp hv⟩
  · rintro ⟨label, hget⟩
    have hmem := (Table.mem_iff_get (h.values label)).mpr hget
    cases hassigned : Table.get st.assigned label with
    | none =>
      rw [seen, hassigned] at hmem
      cases hmem
    | some values =>
      rw [seen, hassigned, Option.getD_some] at hmem
      exact ⟨(label, values), (Table.mem_iff_get h.labels).mpr hassigned, _, hmem, rfl⟩

end Numbering

/-- The masked entries are the labels with all that was foundValues under them. -/
theorem mem_masked_iff {m : MaskedValue} : m ∈ (redact u texts).2 ↔
    ∃ entry ∈ (numbering u texts).assigned, maskedValue u (numbering u texts) entry = m := by
  have hmasked : (redact u texts).2 =
      ((numbering u texts).assigned.map (maskedValue u (numbering u texts))).insertionSort
        (fun a b => b.count < a.count ∨ (a.count = b.count ∧ a.label ≤ b.label)) := rfl
  rw [hmasked, List.mem_insertionSort, List.mem_map]

theorem masked_placeholders {entry : String × List (Text × Text)}
    (h : entry ∈ (numbering u texts).assigned) :
    (maskedValue u (numbering u texts) entry).placeholders = entry.2.map Prod.snd := by
  have hcounted := counted_numbering u texts
  rw [maskedValue, hcounted.order, hcounted.seen_of_mem h]

theorem masked_numbered {m : MaskedValue} (hm : m ∈ (redact u texts).2) :
    m.placeholders = (List.range' 1 m.count).map (placeholder m.label) := by
  obtain ⟨entry, hentry, rfl⟩ := mem_masked_iff.mp hm
  have hcounted := counted_numbering u texts
  rw [masked_placeholders hentry, ← hcounted.seen_of_mem hentry, hcounted.placeholders,
    hcounted.seen_of_mem hentry]
  rfl

theorem mem_masked_placeholders : (∃ m ∈ (redact u texts).2, ph ∈ m.placeholders) ↔
    ∃ p, (numbering u texts).placeholderOf p = some ph := by
  have hcounted := counted_numbering u texts
  have hall : (∃ p, (numbering u texts).placeholderOf p = some ph) ↔
      ∃ v, (ph, v) ∈ (numbering u texts).meanings := by
    simp only [hcounted.mem_meanings, Prod.exists]
    exact exists_comm
  rw [hall]
  simp only [Numbering.meanings, List.mem_flatMap, List.mem_map, Prod.mk.injEq]
  constructor
  · rintro ⟨m, hm, hph⟩
    obtain ⟨entry, hentry, rfl⟩ := mem_masked_iff.mp hm
    rw [masked_placeholders hentry] at hph
    obtain ⟨v, hv, rfl⟩ := List.mem_map.mp hph
    exact ⟨v.1, entry, hentry, v, hv, rfl, rfl⟩
  · rintro ⟨_, entry, hentry, v, hv, rfl, -⟩
    refine ⟨_, mem_masked_iff.mpr ⟨entry, hentry, rfl⟩, ?_⟩
    rw [masked_placeholders hentry]
    exact List.mem_map_of_mem hv

/-- What is written over a finding of the request is its placeholder. -/
theorem edit_spec {text : Text} (ht : text ∈ texts) {f : Finding} (hf : f ∈ findAll u text) :
    ∃ r ∈ recognizers u, ∃ n,
      (numbering u texts).placeholderOf (f.label, f.text) = some (placeholder r.label n) ∧
        ((numbering u texts).edit f).new = placeholder r.label n := by
  obtain ⟨ph, hph⟩ := Option.isSome_iff_exists.mp (mem_foundValues_iff.mp ⟨text, ht, f, hf, rfl⟩)
  obtain ⟨⟨r, hr, hlabel⟩, -⟩ := finding_spec hf
  obtain ⟨n, rfl⟩ := (counted_numbering u texts).placeholder_eq hph
  rw [hlabel] at hph
  refine ⟨r, hr, n, by rw [hlabel, hph], ?_⟩
  rw [Numbering.edit, hlabel, hph]
  rfl

theorem used_of_placeholderOf (h : (numbering u texts).placeholderOf p = some ph) :
    ph ∈ usedPlaceholders u texts := by
  obtain ⟨text, ht, f, hf, rfl⟩ := mem_foundValues_iff.mpr (Option.isSome_iff_exists.mpr ⟨ph, h⟩)
  obtain ⟨r, hr, n, hph, hnew⟩ := edit_spec ht hf
  rw [h, Option.some.injEq] at hph
  refine ⟨⟨r, hr, n, hph⟩, _, by rw [redact_fst]; exact List.mem_map_of_mem ht, ?_⟩
  rw [hph, ← hnew]
  exact new_infix_splice (List.mem_map_of_mem hf)

theorem placeholderOf_of_used (h : Unmarked u texts) (hph : ph ∈ usedPlaceholders u texts) :
    ∃ p, (numbering u texts).placeholderOf p = some ph := by
  obtain ⟨⟨r, hr, n, rfl⟩, out, hout, hin⟩ := hph
  rw [redact_fst] at hout
  obtain ⟨text, ht, rfl⟩ := List.mem_map.mp hout
  have hno := h text ht r hr n
  rw [placeholder_eq_word] at hin hno
  obtain ⟨e, he, hnew⟩ := infix_splice_word (by decide) (tag_bare hr n) (fun e he => by
    obtain ⟨f, hf, rfl⟩ := List.mem_map.mp he
    obtain ⟨r', hr', k, -, hnew⟩ := edit_spec ht hf
    exact ⟨tag r'.label k, tag_bare hr' k, by rw [hnew, placeholder_eq_word]⟩) hno hin
  obtain ⟨f, hf, rfl⟩ := List.mem_map.mp he
  obtain ⟨r', -, k, hph, hnew'⟩ := edit_spec ht hf
  exact ⟨_, by rw [hph, ← hnew', hnew, placeholder_eq_word]⟩

theorem readable_meanings : Readable '<' '>' (numbering u texts).meanings := by
  have hcounted := counted_numbering u texts
  constructor
  · intro e he
    obtain ⟨label, hlabel⟩ := hcounted.mem_meanings.mp he
    obtain ⟨⟨r, hr, n, hph⟩, -⟩ := used_of_placeholderOf hlabel
    exact ⟨tag r.label n, tag_bare hr n, by rw [hph, placeholder_eq_word]⟩
  · intro e he e' he' heq
    obtain ⟨label, hlabel⟩ := hcounted.mem_meanings.mp he
    obtain ⟨label', hlabel'⟩ := hcounted.mem_meanings.mp he'
    exact (Prod.mk.inj (hcounted.placeholderOf_inj hlabel (heq ▸ hlabel'))).2

theorem free_meanings (h : Unmarked u texts) {text : Text} (ht : text ∈ texts) :
    Free (numbering u texts).meanings text := by
  intro e he hin
  obtain ⟨label, hlabel⟩ := (counted_numbering u texts).mem_meanings.mp he
  obtain ⟨⟨r, hr, n, hph⟩, -⟩ := used_of_placeholderOf hlabel
  exact h text ht r hr n (hph ▸ hin)

theorem restore_redacted (h : Unmarked u texts) {text : Text} (ht : text ∈ texts) :
    (numbering u texts).restore (splice text 0 ((findAll u text).map (numbering u texts).edit)) =
      text := by
  refine substitute_splice (by decide) readable_meanings (free_meanings h ht)
    (ordered_findAll u _ text) ?_
  intro e he
  obtain ⟨f, hf, rfl⟩ := List.mem_map.mp he
  obtain ⟨r, -, n, hph, hnew⟩ := edit_spec ht hf
  rw [(counted_numbering u texts).mem_meanings]
  refine ⟨f.label, ?_⟩
  have hslice : (text.take f.stop).drop f.start = f.text := (finding_spec hf).2.symm
  rw [hnew, ← hph, ← hslice]
  rfl

/-- A request without placeholders can be read back from what is made of it. -/
theorem redact_invertible (h : Unmarked u texts) : ReadsBack u texts where
  bijective := by
    refine ⟨?_, ?_, ?_⟩
    · intro p hp
      obtain ⟨ph, hph⟩ := Option.isSome_iff_exists.mp (mem_foundValues_iff.mp hp)
      exact ⟨ph, used_of_placeholderOf hph, hph.symm⟩
    · intro p hp q hq heq
      obtain ⟨ph, hph⟩ := Option.isSome_iff_exists.mp (mem_foundValues_iff.mp hp)
      exact (counted_numbering u texts).placeholderOf_inj hph (heq ▸ hph)
    · rintro _ ⟨ph, hph, rfl⟩
      obtain ⟨p, hp⟩ := placeholderOf_of_used h hph
      exact ⟨p, mem_foundValues_iff.mpr (by rw [hp]; rfl), hp⟩
  numbered _ hm := masked_numbered hm
  listed ph := by
    rw [mem_masked_placeholders]
    exact ⟨placeholderOf_of_used h, fun ⟨_, hp⟩ => used_of_placeholderOf hp⟩
  restored := by
    rw [redact_fst, List.map_map]
    refine (List.map_congr_left fun text ht => ?_).trans (List.map_id texts)
    exact restore_redacted h ht

theorem pan_invertible : Unmarked ascii ["PAN: ABCDE1234F.".toList] ∧
    ReadsBack ascii ["PAN: ABCDE1234F.".toList] := by
  have hfree : Unmarked ascii ["PAN: ABCDE1234F.".toList] := by
    intro text ht r _ n hin
    obtain rfl := List.mem_singleton.mp ht
    rw [placeholder_eq_word] at hin
    exact absurd (hin.subset List.mem_cons_self) (by simp)
  exact ⟨hfree, redact_invertible hfree⟩

end Request

end KnowledgeBase
