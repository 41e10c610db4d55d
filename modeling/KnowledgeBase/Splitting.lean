import KnowledgeBase.Passages

/-! Splitting a text to size: it keeps every letter, no piece is blank, and the pieces that may
be too big are slices of a run without a boundary. -/

namespace KnowledgeBase.Artifact

open Regex Recognizers

variable (u : Tables)

/-- The text without its white space. -/
def letters (text : Text) : Text := text.filter fun c => !u.isSpace c

section Letters

variable {u}

@[simp] theorem letters_nil : letters u [] = [] := rfl

@[simp] theorem letters_append (s t : Text) : letters u (s ++ t) = letters u s ++ letters u t :=
  List.filter_append _ _

theorem letters_eq_nil_iff {text : Text} : letters u text = [] ↔ ∀ c ∈ text, u.isSpace c = true := by
  simp [letters]

theorem letters_dropWhile (text : Text) : letters u (text.dropWhile u.isSpace) = letters u text := by
  induction text with
  | nil => rfl
  | cons c text ih =>
    rw [List.dropWhile_cons]
    split
    · rename_i hc
      rw [ih]
      simp [letters, hc]
    · rfl

@[simp] theorem letters_trim (text : Text) : letters u (trim u text) = letters u text := by
  rw [trim, strip, letters, List.filter_reverse]
  change (letters u _).reverse = _
  rw [letters_dropWhile, letters, List.filter_reverse, List.reverse_reverse]
  exact letters_dropWhile text

theorem trim_eq_nil_iff {text : Text} : trim u text = [] ↔ letters u text = [] := by
  constructor
  · intro h
    rw [← letters_trim, h, letters_nil]
  · intro h
    have hall := letters_eq_nil_iff.mp h
    simp [trim, strip, List.dropWhile_eq_nil_iff.mpr hall]

theorem letters_newlines : letters u "\n\n".toList = [] := by
  simp [letters, u.isSpace_newline]

/-- Trimming the parts and leaving out the blank ones keeps their letters. -/
theorem letters_parts (ps : List Text) :
    ((ps.map (trim u)).filter (· ≠ [])).flatMap (letters u) = ps.flatMap (letters u) := by
  induction ps with
  | nil => rfl
  | cons p ps ih =>
    rw [List.map_cons, List.filter_cons]
    by_cases hp : trim u p = []
    · simp [hp, trim_eq_nil_iff.mp hp, ← ih]
    · simp [hp, ← ih]

theorem letters_flatMap (ps : List Text) : ps.flatMap (letters u) = letters u ps.flatten := by
  rw [letters, List.filter_flatten, List.flatMap_def]
  rfl

end Letters

namespace Chunker

variable {u} {b : SizeBudget}

section Boundaries

theorem partsAt_letters {pattern : Regex Char} (hr : 0 < pattern.minLen)
    (hq : Within u.isSpace pattern) (text : Text) :
    (partsAt u pattern text).flatMap (letters u) = letters u text := by
  rw [partsAt, letters_parts]
  exact split_filter hr hq

theorem boundaryParts_letters (text : Text) :
    (boundaryParts u text).flatMap (letters u) = letters u text := by
  have hnew : ∀ c, (decide (c = '\n')) = true → u.isSpace c = true := by
    intro c hc
    rw [of_decide_eq_true hc]
    exact u.isSpace_newline
  unfold boundaryParts
  split
  · apply partsAt_letters (by simp [paragraphBreak, concat, lit, minLen])
    exact ⟨hnew, fun _ h => h, hnew, trivial⟩
  · apply partsAt_letters (by simp [sentenceEnd, plus, minLen])
    exact ⟨trivial, fun _ h => h, fun _ h => h⟩

theorem mem_partsAt {pattern : Regex Char} {text part : Text} (h : part ∈ partsAt u pattern text) :
    letters u part ≠ [] := by
  obtain ⟨hmem, hne⟩ := List.mem_filter.mp h
  obtain ⟨p, -, rfl⟩ := List.mem_map.mp hmem
  simp only [ne_eq, decide_eq_true_eq, trim_eq_nil_iff] at hne
  rwa [letters_trim]

theorem mem_boundaryParts {text part : Text} (h : part ∈ boundaryParts u text) :
    letters u part ≠ [] := by
  unfold boundaryParts at h
  split at h <;> exact mem_partsAt h

end Boundaries

section Slices

theorem wrapWidth_pos (text : Text) : 0 < wrapWidth b text :=
  Nat.lt_of_lt_of_le Nat.zero_lt_one (Nat.le_max_left _ _)

theorem slices_flatten {width : Nat} (hw : 0 < width) (text : Text) :
    (slices width text).flatten = text := by
  have h : ∀ n, ((List.range n).map fun i => (text.drop (i * width)).take width).flatten =
      text.take (n * width) := by
    intro n
    induction n with
    | zero => simp
    | succ n ih =>
      rw [List.range_succ, List.map_append, List.flatten_append, ih, Nat.succ_mul, List.take_add]
      simp
  rw [slices, h]
  apply List.take_of_length_le
  have hdiv := Nat.div_add_mod (text.length + width - 1) width
  have hmod := Nat.mod_lt (text.length + width - 1) hw
  rw [Nat.mul_comm] at hdiv
  omega

theorem hardWrap_letters (text : Text) :
    (hardWrap u b text).flatMap (letters u) = letters u text := by
  unfold hardWrap
  split
  · simp
  · rw [letters_parts, letters_flatMap, slices_flatten (wrapWidth_pos text)]

end Slices

section Equations

variable {text part buffer : Text} {parts : List Text}

theorem splitToSize_blank (h : trim u text = []) : splitToSize u b text = [] := by
  rw [splitToSize, if_pos h]

theorem splitToSize_fits (h : trim u text ≠ []) (hf : b.fits (trim u text) = true) :
    splitToSize u b text = [trim u text] := by
  rw [splitToSize, if_neg h, if_pos hf]

theorem splitToSize_pack (h : trim u text ≠ []) (hf : ¬ b.fits (trim u text) = true)
    (hp : 1 < (boundaryParts u (trim u text)).length) :
    splitToSize u b text = pack u b (boundaryParts u (trim u text)) [] := by
  rw [splitToSize, if_neg h, if_neg hf, dif_pos hp]

theorem splitToSize_wrap (h : trim u text ≠ []) (hf : ¬ b.fits (trim u text) = true)
    (hp : ¬ 1 < (boundaryParts u (trim u text)).length) :
    splitToSize u b text = hardWrap u b (trim u text) := by
  rw [splitToSize, if_neg h, if_neg hf, dif_neg hp]

theorem pack_nil : pack u b [] buffer = if buffer = [] then [] else [buffer] := by rw [pack]

theorem pack_over (h : b.maximum < b.measure part) :
    pack u b (part :: parts) buffer =
      (if buffer = [] then [] else [buffer]) ++ splitToSize u b part ++ pack u b parts [] := by
  rw [pack, if_pos h]

theorem pack_flush (h : ¬ b.maximum < b.measure part)
    (ht : buffer ≠ [] ∧ b.target < b.measure (buffer ++ "\n\n".toList ++ part)) :
    pack u b (part :: parts) buffer = buffer :: pack u b parts part := by
  rw [pack, if_neg h, if_pos ht]

theorem pack_join (h : ¬ b.maximum < b.measure part)
    (ht : ¬ (buffer ≠ [] ∧ b.target < b.measure (buffer ++ "\n\n".toList ++ part))) :
    pack u b (part :: parts) buffer =
      pack u b parts (if buffer = [] then part else buffer ++ "\n\n".toList ++ part) := by
  rw [pack, if_neg h, if_neg ht]

end Equations

theorem flush_letters (buffer : Text) :
    (if buffer = [] then [] else [buffer]).flatMap (letters u) = letters u buffer := by
  split <;> simp [*]

/-- Splitting neither loses nor repeats nor moves a letter. -/
theorem splitToSize_letters (text : Text) :
    (splitToSize u b text).flatMap (letters u) = letters u text := by
  refine splitToSize.induct u b
    (fun text => (splitToSize u b text).flatMap (letters u) = letters u text)
    (fun parts buffer => (pack u b parts buffer).flatMap (letters u) =
      letters u buffer ++ parts.flatMap (letters u))
    ?blank ?fits ?cut ?wrap ?nil ?last ?large ?flush ?join text
  case blank =>
    intro text h
    rw [splitToSize_blank h, trim_eq_nil_iff.mp h, List.flatMap_nil]
  case fits =>
    intro text h hf
    simp [splitToSize_fits h hf]
  case cut =>
    intro text h hf hp ih
    rw [splitToSize_pack h hf hp, ih, boundaryParts_letters, letters_trim, letters_nil,
      List.nil_append]
  case wrap =>
    intro text h hf hp
    rw [splitToSize_wrap h hf hp, hardWrap_letters, letters_trim]
  case nil => simp [pack_nil]
  case last =>
    intro buffer hb
    simp [pack_nil, hb]
  case large =>
    intro buffer part parts h ihs ihp
    rw [pack_over h, List.flatMap_append, List.flatMap_append, ihs, ihp, flush_letters]
    simp
  case flush =>
    intro buffer part parts h ht ih
    rw [pack_flush h ht, List.flatMap_cons, ih, List.flatMap_cons]
  case join =>
    intro buffer part parts h ht ih
    rw [pack_join h ht]
    simp only [dite_eq_ite] at ih
    rw [ih, List.flatMap_cons, ← List.append_assoc]
    congr 1
    split
    · simp [*]
    · rw [letters_append, letters_append, letters_newlines, List.append_nil]

/-- No piece is blank. -/
theorem splitToSize_ne_blank {text : Text} : ∀ piece ∈ splitToSize u b text, letters u piece ≠ [] := by
  have happ : ∀ {s t : Text}, letters u t ≠ [] → letters u (s ++ t) ≠ [] := by
    intro s t h
    simp [h]
  refine splitToSize.induct u b
    (fun text => ∀ piece ∈ splitToSize u b text, letters u piece ≠ [])
    (fun parts buffer => (∀ part ∈ parts, letters u part ≠ []) →
      (buffer = [] ∨ letters u buffer ≠ []) →
        ∀ piece ∈ pack u b parts buffer, letters u piece ≠ [])
    ?blank ?fits ?cut ?wrap ?nil ?last ?large ?flush ?join text
  case blank =>
    intro text h
    simp [splitToSize_blank h]
  case fits =>
    intro text h hf
    rw [splitToSize_fits h hf]
    simpa [trim_eq_nil_iff] using h
  case cut =>
    intro text h hf hp ih
    rw [splitToSize_pack h hf hp]
    exact ih (fun _ hpart => mem_boundaryParts hpart) (.inl rfl)
  case wrap =>
    intro text h hf hp
    rw [splitToSize_wrap h hf hp]
    unfold hardWrap
    split
    · simpa [trim_eq_nil_iff] using h
    · intro piece hpiece
      obtain ⟨hmem, hne⟩ := List.mem_filter.mp hpiece
      obtain ⟨slice, -, rfl⟩ := List.mem_map.mp hmem
      simpa [trim_eq_nil_iff] using hne
  case nil => simp [pack_nil]
  case last =>
    intro buffer hb _ hbuf
    rw [pack_nil, if_neg hb]
    simpa [hb] using hbuf
  case large =>
    intro buffer part parts h ihs ihp hparts hbuf piece hpiece
    rw [pack_over h, List.mem_append, List.mem_append] at hpiece
    rcases hpiece with (hpiece | hpiece) | hpiece
    · rcases hbuf with rfl | hbuf
      · simp at hpiece
      · split at hpiece
        · simp at hpiece
        · rwa [List.mem_singleton.mp hpiece]
    · exact ihs piece hpiece
    · exact ihp (fun q hq => hparts q (by simp [hq])) (.inl rfl) piece hpiece
  case flush =>
    intro buffer part parts h ht ih hparts hbuf piece hpiece
    rw [pack_flush h ht] at hpiece
    rcases List.mem_cons.mp hpiece with rfl | hpiece
    · exact hbuf.resolve_left ht.1
    · exact ih (fun q hq => hparts q (by simp [hq])) (.inr (hparts part (by simp))) piece hpiece
  case join =>
    intro buffer part parts h ht ih hparts hbuf piece hpiece
    rw [pack_join h ht] at hpiece
    simp only [dite_eq_ite] at ih
    apply ih (fun q hq => hparts q (by simp [hq])) (.inr _) piece hpiece
    split
    · exact hparts part (by simp)
    · exact happ (hparts part (by simp))

end Chunker

end KnowledgeBase.Artifact
