import KnowledgeBase.Recognizers
import KnowledgeBase.Splice
import KnowledgeBase.Table

/-! Redaction of a whole request, and which characters of a text it replaces. -/

namespace KnowledgeBase

/-- `<LABEL_n>`. -/
def placeholder (label : String) (n : Nat) : Text := s!"<{label}_{n}>".toList

/-- The placeholders given out so far, per label and value, and per label in the
order they were given. -/
structure Numbering where
  assigned : List (String × List (Text × Text))
  order : List (String × List Text)

namespace Numbering

def seen (st : Numbering) (label : String) : List (Text × Text) :=
  (Table.get st.assigned label).getD []

/-- A value keeps the placeholder it has; a new one takes the next number. -/
def number (st : Numbering) (f : Finding) : Numbering × Text :=
  match Table.get (st.seen f.label) f.text with
  | some ph => (st, ph)
  | none =>
    let ph := placeholder f.label ((st.seen f.label).length + 1)
    (⟨Table.put st.assigned f.label (Table.put (st.seen f.label) f.text ph),
      Table.put st.order f.label ((Table.get st.order f.label).getD [] ++ [ph])⟩, ph)

end Numbering

/-- The placeholder is written over the finding, right to left over a text, so the
offsets of the findings still to come stay valid. -/
def replaceOne (acc : Numbering × Text) (f : Finding) : Numbering × Text :=
  let (st, ph) := acc.1.number f
  (st, acc.2.take f.start ++ ph ++ acc.2.drop f.stop)

def redactText (u : Unicode) (acc : Numbering × List Text) (text : Text) :
    Numbering × List Text :=
  let findings := findAll u text
  if findings.isEmpty then (acc.1, acc.2 ++ [text])
  else
    let (st, out) :=
      (findings.insertionSort (fun f g => g.start ≤ f.start)).foldl replaceOne (acc.1, text)
    (st, acc.2 ++ [out])

structure MaskedValue where
  label : String
  count : Nat
  placeholders : List Text
  previews : List Text

def strip (u : Unicode) (value : Text) : Text :=
  ((value.dropWhile u.isSpace).reverse.dropWhile u.isSpace).reverse

/-- A partial of a redacted value: an address keeps its domain, a short value is
masked entirely. -/
def preview (u : Unicode) (value : Text) (keepStart keepEnd : Nat) : Text :=
  if value.contains '@' then
    let (local_, rest) := value.span (· ≠ '@')
    let head := if keepStart + 1 < local_.length then local_.take keepStart else []
    head ++ List.replicate (max 3 (local_.length - head.length)) 'x' ++ rest
  else
    let body := strip u value
    if body.length ≤ keepStart + keepEnd + 1 then List.replicate body.length 'x'
    else
      body.take keepStart ++ List.replicate (body.length - keepStart - keepEnd) 'x' ++
        body.drop (body.length - keepEnd)

def maskedValue (u : Unicode) (st : Numbering) (entry : String × List (Text × Text)) :
    MaskedValue :=
  { label := entry.1, count := entry.2.length,
    placeholders := (Table.get st.order entry.1).getD [],
    previews := entry.2.map (fun v => preview u v.1 3 3) }

def redact (u : Unicode) (texts : List Text) : List Text × List MaskedValue :=
  let (st, redacted) := texts.foldl (redactText u) (⟨[], []⟩, [])
  (redacted, (st.assigned.map (maskedValue u st)).insertionSort
    (fun a b => b.count < a.count ∨ (a.count = b.count ∧ a.label ≤ b.label)))

namespace Numbering

def placeholderOf (st : Numbering) (p : String × Text) : Option Text :=
  Table.get (st.seen p.1) p.2

theorem placeholderOf_number (st : Numbering) (f : Finding) (p : String × Text) :
    (st.number f).1.placeholderOf p =
      if p = (f.label, f.text) then some (st.number f).2 else st.placeholderOf p := by
  unfold number
  split
  · rename_i ph hph
    by_cases hp : p = (f.label, f.text)
    · rw [if_pos hp, hp]
      exact hph
    · rw [if_neg hp]
  · obtain ⟨label, value⟩ := p
    simp only [placeholderOf, seen, Table.get_put, Prod.mk.injEq]
    by_cases hl : label = f.label
    · by_cases hv : value = f.text <;> simp [hl, hv, Table.get_put]
    · simp [hl]

/-- What has been given out is kept. -/
theorem placeholderOf_number_of_some {st : Numbering} {p : String × Text} {ph : Text}
    (h : st.placeholderOf p = some ph) (f : Finding) :
    (st.number f).1.placeholderOf p = some ph := by
  rw [placeholderOf_number]
  split
  · rename_i hp
    have hknown : Table.get (st.seen f.label) f.text = some ph := by
      rw [← h, hp]
      rfl
    rw [number, hknown]
  · exact h

/-- The numbering when these findings have been numbered, one after the other. -/
def after (st : Numbering) (fs : List Finding) : Numbering :=
  fs.foldl (fun st f => (st.number f).1) st

theorem placeholderOf_after_of_some {st : Numbering} {p : String × Text} {ph : Text}
    (h : st.placeholderOf p = some ph) (fs : List Finding) :
    (st.after fs).placeholderOf p = some ph := by
  induction fs generalizing st with
  | nil => exact h
  | cons f fs ih => exact ih (placeholderOf_number_of_some h f)

theorem placeholderOf_after_isSome_iff (st : Numbering) (fs : List Finding) (p : String × Text) :
    ((st.after fs).placeholderOf p).isSome = true ↔
      (st.placeholderOf p).isSome = true ∨ ∃ f ∈ fs, (f.label, f.text) = p := by
  induction fs generalizing st with
  | nil => simp [after]
  | cons f fs ih =>
    have hfirst : (st.after (f :: fs)) = (st.number f).1.after fs := rfl
    rw [hfirst, ih, placeholderOf_number]
    by_cases hp : p = (f.label, f.text)
    · simp [hp]
    · have hne : ¬ (f.label, f.text) = p := fun h => hp h.symm
      simp [hp, hne]

/-- Under each label the placeholders are numbered from one, each for a value of its own. -/
structure Counted (st : Numbering) : Prop where
  labels : (st.assigned.map Prod.fst).Nodup
  values : ∀ label, ((st.seen label).map Prod.fst).Nodup
  placeholders : ∀ label, (st.seen label).map Prod.snd =
    (List.range' 1 (st.seen label).length).map (placeholder label)
  order : ∀ label, (Table.get st.order label).getD [] = (st.seen label).map Prod.snd

theorem counted_empty : Counted ⟨[], []⟩ where
  labels := List.nodup_nil
  values _ := List.nodup_nil
  placeholders _ := rfl
  order _ := rfl

theorem Counted.number {st : Numbering} (h : st.Counted) (f : Finding) : (st.number f).1.Counted := by
  unfold Numbering.number
  split
  · exact h
  · rename_i hnew
    obtain ⟨ph, hph⟩ : ∃ ph, ph = placeholder f.label ((st.seen f.label).length + 1) := ⟨_, rfl⟩
    have hput : Table.put (st.seen f.label) f.text ph = st.seen f.label ++ [(f.text, ph)] := by
      rw [Table.put, hnew]
      rfl
    have hseen : ∀ (order : List (String × List Text)) (label : String),
        Numbering.seen ⟨Table.put st.assigned f.label (Table.put (st.seen f.label) f.text ph),
          order⟩ label =
        if label = f.label then st.seen f.label ++ [(f.text, ph)] else st.seen label := by
      intro order label
      rw [seen, Table.get_put, hput]
      split <;> rfl
    dsimp only
    rw [← hph]
    refine ⟨Table.nodup_put h.labels _ _, fun label => ?_, fun label => ?_, fun label => ?_⟩
    · rw [hseen]
      split
      · rw [← hput]
        exact Table.nodup_put (h.values f.label) f.text ph
      · exact h.values label
    · rw [hseen]
      split
      · rename_i hl
        rw [List.map_append, h.placeholders, List.length_append, List.length_singleton,
          List.range'_1_concat, List.map_append, hl, hph, Nat.add_comm 1]
        rfl
      · exact h.placeholders label
    · rw [hseen]
      dsimp only
      rw [Table.get_put]
      split
      · rw [Option.getD_some, h.order, List.map_append]
        rfl
      · exact h.order label

theorem Counted.after {st : Numbering} (h : st.Counted) (fs : List Finding) : (st.after fs).Counted := by
  induction fs generalizing st with
  | nil => exact h
  | cons f fs ih => exact ih (h.number f)

theorem Counted.placeholder_eq {st : Numbering} (h : st.Counted) {label : String} {value ph : Text}
    (hph : st.placeholderOf (label, value) = some ph) : ∃ n, ph = placeholder label n := by
  have hmem : ph ∈ (st.seen label).map Prod.snd :=
    List.mem_map_of_mem ((Table.mem_iff_get (h.values label)).mpr hph)
  rw [h.placeholders] at hmem
  obtain ⟨n, -, rfl⟩ := List.mem_map.mp hmem
  exact ⟨n, rfl⟩

end Numbering

open Splice

/-- A finding with the number its placeholder carries. -/
def Finding.edit (p : Finding × Nat) : Edit Char :=
  ⟨p.1.start, p.1.stop, placeholder p.1.label p.2⟩

/-- `out` is the text with every finding replaced by a placeholder of its label, and
nothing else changed. -/
def Redacted (u : Unicode) (text out : Text) : Prop :=
  ∃ ns : List (Finding × Nat), ns.map Prod.fst = findAll u text ∧
    out = splice text 0 (ns.map Finding.edit)

/-- What is written over a finding. -/
def Numbering.edit (st : Numbering) (f : Finding) : Edit Char :=
  ⟨f.start, f.stop, (st.placeholderOf (f.label, f.text)).getD []⟩

theorem Numbering.edit_after {st : Numbering} {f : Finding}
    (h : (st.placeholderOf (f.label, f.text)).isSome = true) (fs : List Finding) :
    (st.after fs).edit f = st.edit f := by
  obtain ⟨ph, hph⟩ := Option.isSome_iff_exists.mp h
  rw [edit, edit, placeholderOf_after_of_some hph, hph]

/-- Numbering on does not change what was written. -/
theorem Numbering.map_edit_after {st : Numbering} {fs : List Finding}
    (h : ∀ f ∈ fs, (st.placeholderOf (f.label, f.text)).isSome = true) (more : List Finding) :
    fs.map (st.after more).edit = fs.map st.edit :=
  List.map_congr_left fun f hf => edit_after (h f hf) more

theorem replaceOne_foldl (st : Numbering) (text : Text) (fs : List Finding) :
    fs.foldl replaceOne (st, text) =
      (st.after fs, (fs.map (st.after fs).edit).foldl (fun t e => e.apply t) text) := by
  induction fs generalizing st text with
  | nil => rfl
  | cons f fs ih =>
    have hself : (st.number f).1.placeholderOf (f.label, f.text) = some (st.number f).2 := by
      rw [Numbering.placeholderOf_number, if_pos rfl]
    have hone : replaceOne (st, text) f =
        ((st.number f).1, ((st.number f).1.edit f).apply text) := by
      rw [Numbering.edit, hself]
      rfl
    have hfirst : (st.after (f :: fs)) = (st.number f).1.after fs := rfl
    rw [List.foldl_cons, hone, ih, hfirst, List.map_cons, List.foldl_cons,
      Numbering.edit_after (by rw [hself]; rfl)]

/-- Sorted from the right the findings are those of the search in reverse. -/
theorem sort_findAll (u : Unicode) (text : Text) :
    (findAll u text).insertionSort (fun f g => g.start ≤ f.start) = (findAll u text).reverse := by
  obtain ⟨hd, hin⟩ := findAll_pairwise u text
  have hlt : ((findAll u text).map Finding.start).Pairwise (· < ·) := by
    rw [List.pairwise_map]
    refine hd.imp_of_mem ?_
    intro f g hf _ h
    have := hin f hf
    omega
  have hinj := List.inj_on_of_nodup_map (hlt.imp Nat.ne_of_lt)
  have hsorted := List.pairwise_insertionSort (fun f g : Finding => g.start ≤ f.start)
    (findAll u text)
  refine List.Perm.eq_of_pairwise ?_ hsorted ?_ ?_
  · intro f g hf hg h1 h2
    exact hinj (by simpa using hf) (by simpa using hg) (Nat.le_antisymm h2 h1)
  · rw [List.pairwise_reverse]
    exact (List.pairwise_map.mp hlt).imp Nat.le_of_lt
  · exact (List.perm_insertionSort _ _).trans (List.reverse_perm _).symm

/-- Whatever is written over the findings, they follow one another. -/
theorem ordered_findAll (u : Unicode) (st : Numbering) (text : Text) :
    Ordered text 0 ((findAll u text).map st.edit) := by
  obtain ⟨hd, hin⟩ := findAll_pairwise u text
  refine ordered_of_pairwise (Nat.zero_le _) (fun _ _ => Nat.zero_le _) ?_
    (List.pairwise_map.mpr hd)
  intro e he
  obtain ⟨f, hf, rfl⟩ := List.mem_map.mp he
  have hspan := hin f hf
  exact ⟨Nat.le_of_lt hspan.1, hspan.2⟩

theorem redactText_eq (u : Unicode) (st : Numbering) (outs : List Text) (text : Text) :
    redactText u (st, outs) text = (st.after (findAll u text).reverse, outs ++
      [splice text 0 ((findAll u text).map (st.after (findAll u text).reverse).edit)]) := by
  unfold redactText
  by_cases hnone : (findAll u text).isEmpty = true
  · rw [List.isEmpty_iff.mp hnone]
    rfl
  · have happ := foldr_apply (ordered_findAll u (st.after (findAll u text).reverse) text)
    rw [List.take_zero, List.nil_append] at happ
    dsimp only
    rw [if_neg hnone, sort_findAll, replaceOne_foldl, List.map_reverse, List.foldl_reverse, happ]

/-- The findings of a request in the order they are numbered. -/
def findings (u : Unicode) (texts : List Text) : List Finding :=
  texts.flatMap fun text => (findAll u text).reverse

theorem foldl_redactText (u : Unicode) (st : Numbering) (outs : List Text) (texts : List Text) :
    texts.foldl (redactText u) (st, outs) = (st.after (findings u texts), outs ++ texts.map fun text =>
      splice text 0 ((findAll u text).map (st.after (findings u texts)).edit)) := by
  induction texts generalizing st outs with
  | nil => simp [findings, Numbering.after]
  | cons text texts ih =>
    have hsplit : st.after (findings u (text :: texts)) =
        (st.after (findAll u text).reverse).after (findings u texts) := by
      rw [findings, List.flatMap_cons, Numbering.after, List.foldl_append]
      rfl
    have hknown : ∀ f ∈ findAll u text,
        ((st.after (findAll u text).reverse).placeholderOf (f.label, f.text)).isSome = true := by
      intro f hf
      rw [Numbering.placeholderOf_after_isSome_iff]
      exact .inr ⟨f, List.mem_reverse.mpr hf, rfl⟩
    rw [List.foldl_cons, redactText_eq, ih, hsplit, List.map_cons,
      Numbering.map_edit_after hknown, List.append_assoc, List.singleton_append]

/-- The placeholders of a request, when its last text is done. -/
def numbering (u : Unicode) (texts : List Text) : Numbering :=
  (texts.foldl (redactText u) (⟨[], []⟩, [])).1

theorem numbering_eq (u : Unicode) (texts : List Text) :
    numbering u texts = Numbering.after ⟨[], []⟩ (findings u texts) := by
  rw [numbering, foldl_redactText]

/-- Every finding is written over with its placeholder, and nothing else is changed. -/
theorem redact_fst (u : Unicode) (texts : List Text) : (redact u texts).1 =
    texts.map fun text => splice text 0 ((findAll u text).map (numbering u texts).edit) := by
  have hfold := foldl_redactText u ⟨[], []⟩ [] texts
  rw [List.nil_append, ← numbering_eq] at hfold
  exact congrArg Prod.snd hfold

theorem counted_numbering (u : Unicode) (texts : List Text) : (numbering u texts).Counted := by
  rw [numbering_eq]
  exact Numbering.counted_empty.after _

/-- A value has a placeholder when it was found under the label. -/
theorem placeholderOf_numbering_isSome_iff {u : Unicode} {texts : List Text} {p : String × Text} :
    ((numbering u texts).placeholderOf p).isSome = true ↔
      ∃ text ∈ texts, ∃ f ∈ findAll u text, (f.label, f.text) = p := by
  have hnone : Numbering.placeholderOf ⟨[], []⟩ p = none := rfl
  rw [numbering_eq, Numbering.placeholderOf_after_isSome_iff, hnone]
  simp only [Option.isSome_none, Bool.false_eq_true, false_or, findings, List.mem_flatMap,
    List.mem_reverse]
  constructor
  · rintro ⟨f, ⟨text, ht, hf⟩, rfl⟩
    exact ⟨text, ht, f, hf, rfl⟩
  · rintro ⟨text, ht, f, hf, rfl⟩
    exact ⟨f, ⟨text, ht, hf⟩, rfl⟩

theorem redact_spec (u : Unicode) (texts : List Text) :
    List.Forall₂ (Redacted u) texts (redact u texts).1 := by
  rw [redact_fst, List.forall₂_map_right_iff, List.forall₂_same]
  intro text ht
  have hnumbers : ∀ f ∈ findAll u text, ∃ n, (numbering u texts).edit f = Finding.edit (f, n) := by
    intro f hf
    obtain ⟨ph, hph⟩ := Option.isSome_iff_exists.mp
      (placeholderOf_numbering_isSome_iff.mpr ⟨text, ht, f, hf, rfl⟩)
    obtain ⟨n, rfl⟩ := (counted_numbering u texts).placeholder_eq hph
    exact ⟨n, by rw [Numbering.edit, hph]; rfl⟩
  generalize hedits : findAll u text = fs at hnumbers
  suffices h : ∃ ns : List (Finding × Nat), ns.map Prod.fst = fs ∧
      fs.map (numbering u texts).edit = ns.map Finding.edit by
    obtain ⟨ns, hns, heq⟩ := h
    exact ⟨ns, by rw [hns, hedits], by rw [heq]⟩
  clear hedits
  induction fs with
  | nil => exact ⟨[], rfl, rfl⟩
  | cons f fs ih =>
    obtain ⟨n, hn⟩ := hnumbers f List.mem_cons_self
    obtain ⟨ns, rfl, heq⟩ := ih fun g hg => hnumbers g (List.mem_cons_of_mem f hg)
    exact ⟨(f, n) :: ns, rfl, by rw [List.map_cons, List.map_cons, hn, heq]⟩

def Covered (fs : List Finding) (k : Nat) : Prop := ∃ f ∈ fs, f.start ≤ k ∧ k < f.stop

/-- A span that a recognizer's pattern matches and its test accepts. -/
structure Genuine (r : Recognizer) (text : Text) (s e : Nat) : Prop where
  matched : Regex.Matches text r.pattern s e
  accepted : r.accepts (slice text s e) = true

/-- Every genuine value is found, and what is found is replaced. -/
def RedactsGenuine (u : Unicode) : Prop :=
  (∀ text, ∀ r ∈ recognizers u, ∀ s e, Genuine r text s e →
    ∀ k, s ≤ k → k < e → Covered (findAll u text) k) ∧
  ∀ texts, List.Forall₂ (Redacted u) texts (redact u texts).1

theorem covered_of_candidate {u : Unicode} {text : Text} {pre post : List Recognizer}
    {r : Recognizer} (hrs : recognizers u = pre ++ r :: post) {m : Nat × Nat}
    (hm : m ∈ r.pattern.finditer text) (hv : r.accepts (slice text m.1 m.2) = true)
    (hfree : ∀ f ∈ (claimed text pre).1, overlaps m f.span = false)
    {k : Nat} (h1 : m.1 ≤ k) (h2 : k < m.2) : Covered (findAll u text) k := by
  refine ⟨r.finding text m, ?_, h1, h2⟩
  rw [mem_findAll, mem_claimed_iff (recognizers_consume u)]
  exact ⟨pre, r, post, hrs, m, hm, hv, hfree, rfl⟩

theorem covered_of_earlier {u : Unicode} {text : Text} {pre post : List Recognizer}
    (hrs : recognizers u = pre ++ post) {k : Nat} (h : Covered (claimed text pre).1 k) :
    Covered (findAll u text) k := by
  obtain ⟨f, hf, hk⟩ := h
  refine ⟨f, ?_, hk⟩
  rw [mem_findAll, hrs, claimed, List.foldl_append]
  exact mem_claimed_foldl post hf

/-- The scan always yields a candidate around the start of a genuine value. Its
characters are found up to where the candidate ends, when the test accepts the
candidate and no recognizer listed earlier has claimed part of it, and wherever a
recognizer listed earlier has found them. -/
theorem genuine_covered_in_order (u : Unicode) {text : Text} {pre post : List Recognizer}
    {r : Recognizer} (hrs : recognizers u = pre ++ r :: post) {s e : Nat}
    (hg : Genuine r text s e) :
    (∃ m ∈ r.pattern.finditer text, m.1 ≤ s ∧ s < m.2 ∧
      ∀ k, s ≤ k → k < e → Covered (claimed text pre).1 k ∨
        (m = (s, e) ∨ k < m.2 ∧ r.accepts (slice text m.1 m.2) = true) ∧
          (∀ f ∈ (claimed text pre).1, overlaps m f.span = false) →
        Covered (findAll u text) k) ∧
      ∀ texts, List.Forall₂ (Redacted u) texts (redact u texts).1 := by
  refine ⟨?_, redact_spec u⟩
  have hr : 0 < r.pattern.minLen := recognizers_consume u r (by rw [hrs]; simp)
  obtain ⟨m, hm, h1, h2⟩ := Regex.finditer_covers hr hg.matched
  refine ⟨m, hm, h1, h2, ?_⟩
  intro k hs he hk
  rcases hk with hk | ⟨hspan, hfree⟩
  · exact covered_of_earlier hrs hk
  · rcases hspan with hme | ⟨hkm, hv⟩
    · subst hme
      exact covered_of_candidate hrs hm hg.accepted hfree hs he
    · exact covered_of_candidate hrs hm hv hfree (Nat.le_trans h1 hs) hkm

def ascii : Unicode where
  decimal c := if asciiDigit c then some (c.toNat - '0'.toNat) else none
  isAlnum c := asciiDigit c || asciiLetter c
  isSpace c := c = ' ' || ('\t' ≤ c && c ≤ '\r')

theorem pan_covered : Covered (findAll ascii "PAN: ABCDE1234F.".toList) 14 := by
  have hrs : recognizers ascii = [(recognizers ascii)[0]] ++ (recognizers ascii)[1] ::
      (recognizers ascii).drop 2 := rfl
  have hg : Genuine (recognizers ascii)[1] "PAN: ABCDE1234F.".toList 5 15 :=
    ⟨Regex.mem_ends_iff.mp (by decide +kernel), rfl⟩
  obtain ⟨⟨m, hm, -, -, hk⟩, -⟩ := genuine_covered_in_order ascii hrs hg
  have hscan : (recognizers ascii)[1].pattern.finditer "PAN: ABCDE1234F.".toList = [(5, 15)] := by
    decide +kernel
  rw [hscan, List.mem_singleton] at hm
  refine hk 14 (by omega) (by omega) (.inr ⟨.inl hm, ?_⟩)
  have hnone : (claimed "PAN: ABCDE1234F.".toList [(recognizers ascii)[0]]).1 = [] := by
    decide +kernel
  rw [hnone]
  intro f hf
  cases hf

/-- The local part of this address has the shape of a GSTIN, which is tried first, so
the address is not reported and its domain stays in the text. -/
theorem address_behind_gstin_left : ¬ RedactsGenuine ascii := by
  intro h
  have hg : Genuine (recognizers ascii)[6] "27ABCDE1234F1Z5@x.com".toList 0 21 :=
    ⟨Regex.mem_ends_iff.mp (by decide +kernel), rfl⟩
  obtain ⟨f, hf, h1, h2⟩ := h.1 _ _ (List.getElem_mem _) 0 21 hg 20 (by omega) (by omega)
  have hall : ∀ f ∈ findAll ascii "27ABCDE1234F1Z5@x.com".toList, f.stop ≤ 15 := by
    decide +kernel
  have := hall f hf
  omega

end KnowledgeBase
