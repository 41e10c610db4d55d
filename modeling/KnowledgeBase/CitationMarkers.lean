import KnowledgeBase.AnswerService
import KnowledgeBase.Excision

/-! The markers of an answer against the citations that come with it. A marker is found by its
digits but taken out by its number, and what is taken out may stand inside other brackets. -/

namespace KnowledgeBase

/-- The tables have the decimals of ASCII, and the brackets are no white space. -/
structure Unicode.ExtendsAscii (u : Unicode) : Prop where
  decimal : ∀ c : Char, c.toNat < 128 →
    u.decimal c = if asciiDigit c then some (c.toNat - '0'.toNat) else none
  isSpace : u.isSpace '[' = false ∧ u.isSpace ']' = false

theorem Unicode.ExtendsAscii.not_digit {u : Unicode} (hu : u.ExtendsAscii) {c : Char} (hc : c.toNat < 128)
    (hno : asciiDigit c = false) : u.isDigit c = false := by
  rw [Unicode.isDigit, hu.decimal c hc, hno]
  rfl

namespace AnswerService

open Regex Recognizers Excision

variable {u : Unicode} {t reply : Text} {sent : List RetrievedChunk} {n : Nat}

/-- A number as it prints. -/
def printed (n : Nat) : Text := (toString n).toList

def takeOut (ns : List Nat) (t : Text) : Text :=
  ns.foldl (fun t n => removeAll s!"[{n}]".toList 0 t) t

def Numeral (u : Unicode) (ds : Text) : Prop := ds ≠ [] ∧ ∀ c ∈ ds, u.isDigit c = true

def InRange (sent : List RetrievedChunk) (n : Nat) : Prop := 1 ≤ n ∧ n ≤ sent.length

/-- Every marker of the answer names a passage that was sent and has one citation, and every
citation is that of its passage and of a marker of the reply. -/
structure CitationsSound (u : Unicode) (reply : Text) (sent : List RetrievedChunk) : Prop where
  markers : ∀ n ∈ markers u (verifyCitations u reply sent).1, InRange sent n ∧
    ((verifyCitations u reply sent).2.1.map Citation.marker).count n = 1
  citations : ∀ c ∈ (verifyCitations u reply sent).2.1, c.marker ∈ AnswerService.markers u reply ∧
    ∃ p, (p, c.marker) ∈ sent.zipIdx 1 ∧ c.chunkId = p.chunkId ∧ c.documentId = p.documentId

/-- The numbers of the reply that name no passage, in the order it first names them. -/
def strays (u : Unicode) (reply : Text) (sent : List RetrievedChunk) : List Nat :=
  (distinct (markers u reply)).filter fun n => ¬ (1 ≤ n ∧ n ≤ sent.length)

/-- At the turn of one of the numbers, `w` reads as that number prints. -/
def ReadsAtTurn (ns : List Nat) (w : Text) : Prop :=
  ∃ ms n ls, ns = ms ++ n :: ls ∧ takeOut ms w = printed n

/-- The numbers that name no passage are written as they print; and where taking them out
leaves a number between brackets that held others, it names a passage and is a marker of the
reply, or is taken out at its own turn. -/
structure TakenOut (u : Unicode) (reply : Text) (sent : List RetrievedChunk) : Prop where
  plain : ∀ ds, Numeral u ds → word '[' ']' ds <:+: reply → ¬ InRange sent (number u ds) →
    ds = printed (number u ds)
  nested : ∀ w, '[' ∈ w → word '[' ']' w <:+: reply → Numeral u (takeOut (strays u reply sent) w) →
    (InRange sent (number u (takeOut (strays u reply sent) w)) ∧
      number u (takeOut (strays u reply sent) w) ∈ markers u reply) ∨
    ReadsAtTurn (strays u reply sent) w

section Numbers

theorem bracketed_toList (n : Nat) : s!"[{n}]".toList = word '[' ']' (printed n) := by
  simp [word, printed]
  rfl

theorem printed_digits (n : Nat) : ∀ c ∈ printed n, asciiDigit c = true := by
  intro c hc
  rw [printed, Nat.toString_eq_repr, Nat.toList_repr] at hc
  have hd := Nat.isDigit_of_mem_toDigits (by decide) (by decide) hc
  simpa [Char.isDigit, asciiDigit, Char.le_def] using hd

theorem printed_bare (n : Nat) : Bare '[' ']' (printed n) := by
  constructor <;> intro h
  · exact absurd (printed_digits n _ h) (by decide)
  · exact absurd (printed_digits n _ h) (by decide)

/-- Digits of ASCII are read as they are written. -/
theorem number_ascii (hu : u.ExtendsAscii) {ds : Text} (hds : ∀ c ∈ ds, asciiDigit c = true)
    (m : Nat) : ds.foldl (fun n c => 10 * n + u.value c) m = Nat.ofDigitChars 10 ds m := by
  induction ds generalizing m with
  | nil => rfl
  | cons c ds ih =>
    obtain ⟨hc, hds⟩ := List.forall_mem_cons.mp hds
    have hlt : c.toNat < 128 := by
      rw [asciiDigit, Bool.and_eq_true, decide_eq_true_eq, decide_eq_true_eq] at hc
      exact Nat.lt_of_le_of_lt (UInt32.le_iff_toNat_le.mp (Char.le_def.mp hc.2)) (by decide)
    have hvalue : u.value c = c.toNat - '0'.toNat := by
      rw [Unicode.value, hu.decimal c hlt, hc]
      rfl
    rw [List.foldl_cons, ih hds, Nat.ofDigitChars_cons, hvalue]

theorem number_printed (hu : u.ExtendsAscii) (n : Nat) : number u (printed n) = n := by
  rw [number, number_ascii hu (printed_digits n) 0, printed, Nat.toString_eq_repr,
    Nat.toList_repr, Nat.ofDigitChars_ten_toDigits]

end Numbers

section Removal

theorem removeAll_drop (p : Text) (k : Nat) (t : Text) :
    removeAll p k t = removeAll p 0 (t.drop k) := by
  induction t generalizing k with
  | nil => cases k <;> rfl
  | cons c t ih =>
    cases k with
    | zero => rfl
    | succ k => exact ih k

theorem removes_removeAll {p : Text} (hp : p ≠ []) (t : Text) : Removes p t (removeAll p 0 t) := by
  induction hn : t.length using Nat.strongRecOn generalizing t with
  | ind n ih =>
    cases t with
    | nil => exact .nil
    | cons c t =>
      rw [removeAll]
      split
      · rename_i hpre
        obtain ⟨z, hz⟩ := List.isPrefixOf_iff_prefix.mp hpre
        obtain ⟨a, p, rfl⟩ := List.exists_cons_of_ne_nil hp
        obtain ⟨rfl, rfl⟩ := List.cons.inj hz
        rw [removeAll_drop]
        have hdrop : (p ++ z).drop ((a :: p).length - 1) = z := by simp
        show Removes (a :: p) ((a :: p) ++ z) (removeAll _ 0 ((p ++ z).drop _))
        rw [hdrop]
        have hlen : z.length < n := by
          have happ : (p.append z).length = p.length + z.length := List.length_append
          rw [← hn, List.length_cons, happ]
          omega
        exact .hit (ih z.length hlen z rfl)
      · rename_i hpre
        refine .skip (fun h => hpre (List.isPrefixOf_iff_prefix.mpr h)) (ih t.length ?_ t rfl)
        rw [← hn]
        exact Nat.lt_succ_self _

theorem removesEach_takeOut (ns : List Nat) (t : Text) :
    RemovesEach '[' ']' (ns.map printed) t (takeOut ns t) := by
  induction ns generalizing t with
  | nil => exact .nil t
  | cons n ns ih =>
    refine .cons (u := removeAll s!"[{n}]".toList 0 t) ?_ (ih _)
    rw [bracketed_toList]
    exact removes_removeAll (word_ne_nil _ _ _) t

theorem takeOut_unique {ns : List Nat} {w v : Text} (h : RemovesEach '[' ']' (ns.map printed) w v) :
    takeOut ns w = v := by
  induction ns generalizing w with
  | nil =>
    cases h
    rfl
  | cons n ns ih =>
    cases h with
    | cons h hs =>
      have hone := removes_removeAll (word_ne_nil '[' ']' (printed n)) w
      rw [← ih hs, ← Removes.unique (word_ne_nil _ _ _) hone h, ← bracketed_toList]
      rfl

theorem comesUp_iff {ns : List Nat} {w : Text} :
    ComesUp '[' ']' (ns.map printed) w ↔ ReadsAtTurn ns w := by
  constructor
  · rintro ⟨ds, d, es, hs, hr⟩
    obtain ⟨ms, ls', rfl, rfl, hrest⟩ := List.map_eq_append_iff.mp hs
    obtain ⟨n, ls, rfl, rfl, rfl⟩ := List.map_eq_cons_iff.mp hrest
    exact ⟨ms, n, ls, rfl, takeOut_unique hr⟩
  · rintro ⟨ms, n, ls, rfl, hw⟩
    exact ⟨ms.map printed, printed n, ls.map printed, by simp, hw ▸ removesEach_takeOut ms w⟩

/-- A number between brackets after the removals is what they leave of some stretch between
brackets that does not come up itself. -/
theorem word_takeOut_iff {ns : List Nat} {ds : Text} (hds : Bare '[' ']' ds) :
    word '[' ']' ds <:+: takeOut ns t ↔
      ∃ w, word '[' ']' w <:+: t ∧ takeOut ns w = ds ∧ ¬ ReadsAtTurn ns w := by
  have hbare : ∀ d ∈ ns.map printed, Bare '[' ']' d := by
    intro d hd
    obtain ⟨n, -, rfl⟩ := List.mem_map.mp hd
    exact printed_bare n
  rw [(removesEach_takeOut ns t).word_iff (by decide) hbare hds]
  constructor
  · rintro ⟨w, hw, hr, hup⟩
    exact ⟨w, hw, takeOut_unique hr, fun h => hup (comesUp_iff.mpr h)⟩
  · rintro ⟨w, hw, rfl, hup⟩
    exact ⟨w, hw, removesEach_takeOut ns w, fun h => hup (comesUp_iff.mp h)⟩

end Removal

section Markers

theorem Numeral.bare (hu : u.ExtendsAscii) {ds : Text} (h : Numeral u ds) : Bare '[' ']' ds := by
  constructor <;> intro hmem
  · have hno : u.isDigit '[' = false := hu.not_digit (by decide) (by decide)
    rw [h.2 _ hmem] at hno
    cases hno
  · have hno : u.isDigit ']' = false := hu.not_digit (by decide) (by decide)
    rw [h.2 _ hmem] at hno
    cases hno

/-- A match of `_MARKER` is a numeral between brackets. -/
theorem matches_marker_iff {i j : Nat} : Matches t (marker u) i j ↔
    ∃ ds, Numeral u ds ∧ j = i + ds.length + 2 ∧ t.drop i = word '[' ']' ds ++ t.drop j := by
  constructor
  · intro h
    simp only [marker, Regex.concat] at h
    cases h with
    | seq hopen h =>
      cases h with
      | seq hdigits h =>
        cases h with
        | seq hclose h =>
          cases h
          cases hdigits with
          | seq hdigit hstar =>
            obtain ⟨rfl, o, ho, hd⟩ := matches_cls_iff.mp hopen
            obtain ⟨rfl, a, ha, hda⟩ := matches_cls_iff.mp hdigit
            obtain ⟨ds, hds, rfl, hdds⟩ := matches_star_cls_iff.mp hstar
            obtain ⟨rfl, c, hc, hdc⟩ := matches_cls_iff.mp hclose
            obtain rfl : o = '[' := of_decide_eq_true ho
            obtain rfl : c = ']' := of_decide_eq_true hc
            refine ⟨a :: ds, ⟨List.cons_ne_nil _ _, List.forall_mem_cons.mpr ⟨ha, hds⟩⟩, ?_, ?_⟩
            · simp only [List.length_cons]
              omega
            · rw [hd, hda, hdds, hdc]
              simp [word]
  · rintro ⟨ds, ⟨hne, hds⟩, rfl, hd⟩
    obtain ⟨a, ds, rfl⟩ := List.exists_cons_of_ne_nil hne
    obtain ⟨ha, hds⟩ := List.forall_mem_cons.mp hds
    have hj : i + (a :: ds).length + 2 = i + 1 + 1 + ds.length + 1 := by
      simp only [List.length_cons]
      omega
    rw [hj] at hd ⊢
    generalize hz : t.drop (i + 1 + 1 + ds.length + 1) = z at hd
    have hfirst : t.drop (i + 1) = a :: (ds ++ ']' :: z) := by
      rw [← List.drop_drop, hd]
      simp [word]
    have hrest : t.drop (i + 1 + 1) = ds ++ ']' :: z := by rw [← List.drop_drop, hfirst]; rfl
    have hlast : t.drop (i + 1 + 1 + ds.length) = ']' :: z := by
      rw [← List.drop_drop, hrest, List.drop_left]
    have hopen : Matches t (lit '[') i (i + 1) :=
      matches_cls_iff.mpr ⟨rfl, '[', rfl, by rw [hd, hfirst]; simp [word]⟩
    have hdigit : Matches t (digit u) (i + 1) (i + 1 + 1) :=
      matches_cls_iff.mpr ⟨rfl, a, ha, by rw [hfirst, hrest]⟩
    have hstar : Matches t (star (digit u)) (i + 1 + 1) (i + 1 + 1 + ds.length) :=
      matches_star_cls_iff.mpr ⟨ds, hds, rfl, by rw [hrest, hlast]⟩
    have hclose : Matches t (lit ']') (i + 1 + 1 + ds.length) (i + 1 + 1 + ds.length + 1) :=
      matches_cls_iff.mpr ⟨rfl, ']', rfl, by rw [hlast, hz]⟩
    exact .seq hopen (.seq (.seq hdigit hstar) (.seq hclose (.eps _)))

/-- Two matches that overlap are one. -/
theorem marker_overlap (hu : u.ExtendsAscii) {i j k l : Nat} (h : Matches t (marker u) i j)
    (h' : Matches t (marker u) k l) (hle : i ≤ k) (hlt : k < j) : i = k ∧ j = l := by
  obtain ⟨ds, hds, rfl, hd⟩ := matches_marker_iff.mp h
  obtain ⟨es, hes, rfl, hd'⟩ := matches_marker_iff.mp h'
  obtain ⟨m, rfl⟩ := Nat.exists_eq_add_of_le hle
  have hshift := congrArg (List.drop m) hd
  rw [List.drop_drop, hd'] at hshift
  cases m with
  | zero =>
    simp only [List.drop_zero, word, List.cons_append, List.append_assoc] at hshift
    have hpre : es ++ [']'] <+: ds ++ ']' :: t.drop (i + ds.length + 2) :=
      ⟨_, by simpa using (List.cons.inj hshift).2⟩
    rcases prefix_close (hes.bare hu).2 hpre with hp | rfl
    · exact absurd (hp.subset (List.mem_append_right _ (List.mem_singleton_self _))) (hds.bare hu).2
    · exact ⟨rfl, rfl⟩
  | succ m =>
    -- an opening bracket inside a match would be one of its digits
    have hin : m < (ds ++ [']']).length := by
      rw [List.length_append]
      simp only [List.length_singleton]
      omega
    have hat : (ds ++ [']'])[m] = '[' := by
      have hhead := congrArg List.head? hshift
      simp only [word, List.cons_append, List.drop_succ_cons, List.head?_cons, List.head?_drop,
        List.getElem?_append_left hin, List.getElem?_eq_getElem hin] at hhead
      exact (Option.some.inj hhead).symm
    have hmem : '[' ∈ ds ++ [']'] := hat ▸ List.getElem_mem hin
    rcases List.mem_append.mp hmem with hm | hm
    · exact absurd hm (hds.bare hu).1
    · exact absurd (List.mem_singleton.mp hm) (by decide)

/-- The markers are the numerals between brackets. -/
theorem mem_markers (hu : u.ExtendsAscii) : n ∈ markers u t ↔
    ∃ ds, Numeral u ds ∧ number u ds = n ∧ word '[' ']' ds <:+: t := by
  have hslice : ∀ {i : Nat} {ds : Text}, t.drop i = word '[' ']' ds ++ t.drop (i + ds.length + 2) →
      slice t (i + 1) (i + ds.length + 2 - 1) = ds := by
    intro i ds hd
    rw [slice, List.drop_take, ← List.drop_drop, hd]
    have hlen : i + ds.length + 2 - 1 - (i + 1) = ds.length := by omega
    rw [hlen]
    simp [word]
  rw [markers, List.mem_map]
  constructor
  · rintro ⟨⟨i, j⟩, hm, rfl⟩
    have hmatch : Matches t (marker u) i j := scan_matches hm
    obtain ⟨ds, hds, rfl, hd⟩ := matches_marker_iff.mp hmatch
    refine ⟨ds, hds, congrArg (number u) (hslice hd).symm, t.take i, t.drop (i + ds.length + 2), ?_⟩
    rw [List.append_assoc, ← hd, List.take_append_drop]
  · rintro ⟨ds, hds, rfl, x, y, hxy⟩
    have hd : t.drop x.length = word '[' ']' ds ++ t.drop (x.length + ds.length + 2) := by
      have hlen : x.length + ds.length + 2 = (x ++ word '[' ']' ds).length := by
        simp [word]
        omega
      rw [hlen, ← hxy, List.drop_left, List.append_assoc, List.drop_left]
    have hm : Matches t (marker u) x.length (x.length + ds.length + 2) :=
      matches_marker_iff.mpr ⟨ds, hds, rfl, hd⟩
    have hmin : 0 < (marker u).minLen := Nat.succ_pos 2
    obtain ⟨⟨i, j⟩, hmem, hle, hlt⟩ := finditer_covers hmin hm
    obtain ⟨rfl, rfl⟩ := marker_overlap hu (scan_matches hmem) hm hle hlt
    exact ⟨_, hmem, congrArg (number u) (hslice hd)⟩

end Markers

section Whitespace

/-- The characters of markers. -/
def InMarker (u : Unicode) (c : Char) : Prop := c = '[' ∨ c = ']' ∨ u.isDigit c = true

theorem singleSpaces_space (t : Text) : ∃ r, singleSpaces (' ' :: t) = ' ' :: r := by
  induction t with
  | nil => exact ⟨[], rfl⟩
  | cons c t ih =>
    rw [singleSpaces]
    split
    · rename_i h
      obtain rfl := Option.some.inj h.2
      exact ih
    · exact ⟨_, rfl⟩

/-- Blanks are left out before a blank that stays. -/
theorem thins_singleSpaces {A : Char → Prop} (hblank : ¬ A ' ') (t : Text) :
    Thins A t (singleSpaces t) := by
  induction t with
  | nil => exact .nil
  | cons c t ih =>
    rw [singleSpaces]
    split
    · rename_i h
      obtain ⟨rfl, hhead⟩ := h
      obtain ⟨t, rfl⟩ := List.head?_eq_some_iff.mp hhead
      obtain ⟨r, hr⟩ := singleSpaces_space t
      rw [hr] at ih ⊢
      exact .drop hblank hblank ih
    · exact .keep c ih

theorem closePunctuation_blanks {b : Char} {t : Text} (hb : ['.', ',', ';', ':'].contains b = true)
    (h : (t.dropWhile (· = ' ')).head? = some b) : ∃ r, closePunctuation t = b :: r := by
  induction t with
  | nil => cases h
  | cons c t ih =>
    by_cases hc : c = ' '
    · subst hc
      rw [List.dropWhile_cons_of_pos (by decide)] at h
      rw [closePunctuation, if_pos ⟨rfl, by rw [h]; exact hb⟩]
      exact ih h
    · rw [List.dropWhile_cons_of_neg (by simpa using hc)] at h
      obtain rfl := Option.some.inj h
      exact ⟨_, by rw [closePunctuation, if_neg fun h => hc h.1]⟩

/-- Or before a sign of punctuation. -/
theorem thins_closePunctuation {A : Char → Prop} (hblank : ¬ A ' ')
    (hsigns : ∀ b, ['.', ',', ';', ':'].contains b = true → ¬ A b) (t : Text) :
    Thins A t (closePunctuation t) := by
  induction t with
  | nil => exact .nil
  | cons c t ih =>
    rw [closePunctuation]
    split
    · rename_i h
      obtain ⟨rfl, hany⟩ := h
      obtain ⟨b, hhead, hb⟩ := (Option.any_eq_true _ _).mp hany
      obtain ⟨r, hr⟩ := closePunctuation_blanks hb hhead
      rw [hr] at ih ⊢
      exact .drop hblank (hsigns b hb) ih
    · exact .keep c ih

theorem infix_strip (hu : u.ExtendsAscii) {ds : Text} :
    word '[' ']' ds <:+: strip u t ↔ word '[' ']' ds <:+: t := by
  have hrev : (word '[' ']' ds).reverse = ']' :: (ds.reverse ++ ['[']) := by simp [word]
  rw [strip, ← List.reverse_infix, List.reverse_reverse, hrev, infix_dropWhile hu.isSpace.2, ← hrev,
    List.reverse_infix]
  exact infix_dropWhile hu.isSpace.1

/-- The repair of the blanks makes no marker and loses none. -/
theorem infix_repaired (hu : u.ExtendsAscii) {ds : Text} (hds : Numeral u ds) :
    word '[' ']' ds <:+: strip u (closePunctuation (singleSpaces t)) ↔ word '[' ']' ds <:+: t := by
  have hno : ∀ c : Char, c.toNat < 128 → asciiDigit c = false → c ≠ '[' → c ≠ ']' →
      ¬ InMarker u c := by
    rintro c hc hd ho hcl (rfl | rfl | h)
    · exact ho rfl
    · exact hcl rfl
    · rw [hu.not_digit hc hd] at h
      cases h
  have hblank : ¬ InMarker u ' ' := hno ' ' (by decide) (by decide) (by decide) (by decide)
  have hsigns : ∀ b, ['.', ',', ';', ':'].contains b = true → ¬ InMarker u b := by
    intro b hb
    have hmem : b = '.' ∨ b = ',' ∨ b = ';' ∨ b = ':' := by simpa using hb
    rcases hmem with rfl | rfl | rfl | rfl <;>
      exact hno _ (by decide) (by decide) (by decide) (by decide)
  have hword : ∀ c ∈ word '[' ']' ds, InMarker u c := by
    intro c hc
    rcases List.mem_cons.mp hc with rfl | hc
    · exact .inl rfl
    · rcases List.mem_append.mp hc with hc | hc
      · exact .inr (.inr (hds.2 c hc))
      · exact .inr (.inl (List.mem_singleton.mp hc))
  rw [infix_strip hu,
    ← (thins_closePunctuation hblank hsigns _).infix_iff hword (word_ne_nil _ _ _),
    ← (thins_singleSpaces hblank t).infix_iff hword (word_ne_nil _ _ _)]

end Whitespace

section Citations

theorem distinct_from (ns seen : List Nat) (hseen : seen.Nodup) :
    (ns.foldl (fun seen n => if seen.contains n then seen else seen ++ [n]) seen).Nodup ∧
      ∀ n, n ∈ ns.foldl (fun seen n => if seen.contains n then seen else seen ++ [n]) seen ↔
        n ∈ seen ∨ n ∈ ns := by
  induction ns generalizing seen with
  | nil => simpa using hseen
  | cons m ns ih =>
    rw [List.foldl_cons]
    split
    · rename_i hm
      have hmem : m ∈ seen := by simpa using hm
      refine ⟨(ih seen hseen).1, fun n => ?_⟩
      rw [(ih seen hseen).2 n, List.mem_cons]
      grind
    · rename_i hm
      have hmem : m ∉ seen := by simpa using hm
      have hnodup : (seen ++ [m]).Nodup := by
        rw [List.nodup_append]
        simp [hseen]
        grind
      refine ⟨(ih _ hnodup).1, fun n => ?_⟩
      rw [(ih _ hnodup).2 n]
      simp [or_assoc]

theorem distinct_nodup (ns : List Nat) : (distinct ns).Nodup := (distinct_from ns [] .nil).1

@[simp] theorem mem_distinct {ns : List Nat} : n ∈ distinct ns ↔ n ∈ ns := by
  rw [distinct, (distinct_from ns [] .nil).2 n]
  simp

theorem citation_eq_some {c : Citation} : citation sent n = some c ↔
    ∃ p, sent[n - 1]? = some p ∧ c = ⟨n, p.chunkId, p.documentId, p.filename, p.pageNumber,
      p.sectionHeading, p.text⟩ := by
  rw [citation, Option.map_eq_some_iff]
  exact exists_congr fun p => and_congr_right fun _ => eq_comm

/-- The citations are those of the numbers found that name a passage, each once. -/
theorem map_marker_citations (ns : List Nat) (hns : ∀ n ∈ ns, InRange sent n) :
    (ns.filterMap (citation sent)).map Citation.marker = ns := by
  induction ns with
  | nil => rfl
  | cons n ns ih =>
    obtain ⟨hn, hns⟩ := List.forall_mem_cons.mp hns
    have hlt : n - 1 < sent.length := by
      have := hn.1
      have := hn.2
      omega
    have hc : citation sent n = some _ :=
      citation_eq_some.mpr ⟨sent[n - 1], List.getElem?_eq_getElem hlt, rfl⟩
    rw [List.filterMap_cons_some hc, List.map_cons, ih hns]

/-- The numbers found that name a passage. -/
def named (u : Unicode) (reply : Text) (sent : List RetrievedChunk) : List Nat :=
  (distinct (markers u reply)).filter fun n => 1 ≤ n ∧ n ≤ sent.length

theorem mem_named : n ∈ named u reply sent ↔ n ∈ markers u reply ∧ InRange sent n := by
  rw [named, List.mem_filter, mem_distinct, decide_eq_true_eq, InRange]

theorem mem_strays : n ∈ strays u reply sent ↔ n ∈ markers u reply ∧ ¬ InRange sent n := by
  rw [strays, List.mem_filter, mem_distinct, decide_eq_true_eq, InRange]

theorem verifyCitations_text : (verifyCitations u reply sent).1 =
    strip u (closePunctuation (singleSpaces (takeOut (strays u reply sent) reply))) := rfl

theorem verifyCitations_citations : (verifyCitations u reply sent).2.1 =
    ((named u reply sent).insertionSort (· ≤ ·)).filterMap (citation sent) := rfl

theorem citations_markers : (verifyCitations u reply sent).2.1.map Citation.marker =
    (named u reply sent).insertionSort (· ≤ ·) := by
  rw [verifyCitations_citations]
  refine map_marker_citations _ fun n hn => ?_
  exact (mem_named.mp ((List.perm_insertionSort _ _).mem_iff.mp hn)).2

/-- A number has one citation if it is found and names a passage, and none otherwise. -/
theorem citation_count : ((verifyCitations u reply sent).2.1.map Citation.marker).count n = 1 ↔
    n ∈ markers u reply ∧ InRange sent n := by
  rw [citations_markers, (List.perm_insertionSort _ _).count_eq, ← mem_named]
  constructor
  · intro h
    exact List.count_pos_iff.mp (by rw [h]; exact Nat.one_pos)
  · exact List.count_eq_one_of_mem ((distinct_nodup _).filter _)

/-- Whatever the reply, a citation is that of its passage. -/
theorem citation_of_passage : ∀ c ∈ (verifyCitations u reply sent).2.1,
    c.marker ∈ markers u reply ∧
      ∃ p, (p, c.marker) ∈ sent.zipIdx 1 ∧ c.chunkId = p.chunkId ∧ c.documentId = p.documentId := by
  intro c hc
  rw [verifyCitations_citations] at hc
  obtain ⟨n, hn, hcite⟩ := List.mem_filterMap.mp hc
  obtain ⟨hmark, hlow, -⟩ := mem_named.mp ((List.perm_insertionSort _ _).mem_iff.mp hn)
  obtain ⟨p, hp, rfl⟩ := citation_eq_some.mp hcite
  exact ⟨hmark, p, List.mk_mem_zipIdx_iff_le_and_getElem?_sub.mpr ⟨hlow, hp⟩, rfl, rfl⟩

end Citations

/-- What is left between brackets names a passage and is a marker of the reply. -/
def LeftCited (u : Unicode) (reply : Text) (sent : List RetrievedChunk) : Prop :=
  ∀ ds, Numeral u ds → word '[' ']' ds <:+: takeOut (strays u reply sent) reply →
    InRange sent (number u ds) ∧ number u ds ∈ markers u reply

theorem sound_iff_leftCited (hu : u.ExtendsAscii) :
    CitationsSound u reply sent ↔ LeftCited u reply sent := by
  constructor
  · intro h ds hds hleft
    have hmark : number u ds ∈ markers u (verifyCitations u reply sent).1 := by
      rw [mem_markers hu]
      exact ⟨ds, hds, rfl, by rw [verifyCitations_text]; exact (infix_repaired hu hds).mpr hleft⟩
    obtain ⟨hrange, hone⟩ := h.markers _ hmark
    exact ⟨hrange, (citation_count.mp hone).1⟩
  · intro h
    refine ⟨fun n hn => ?_, citation_of_passage⟩
    obtain ⟨ds, hds, rfl, hword⟩ := (mem_markers hu).mp hn
    rw [verifyCitations_text, infix_repaired hu hds] at hword
    obtain ⟨hrange, hmark⟩ := h ds hds hword
    exact ⟨hrange, citation_count.mpr ⟨hmark, hrange⟩⟩

theorem takeOut_self {ds : Text} (h : '[' ∉ ds) (ns : List Nat) : takeOut ns ds = ds := by
  induction ns with
  | nil => rfl
  | cons n ns ih =>
    have hsame : removeAll s!"[{n}]".toList 0 ds = ds := by
      rw [bracketed_toList]
      exact Removes.unique (word_ne_nil _ _ _) (removes_removeAll (word_ne_nil _ _ _) ds)
        (removes_self (.inl h) _)
    show takeOut ns (removeAll s!"[{n}]".toList 0 ds) = ds
    rw [hsame, ih]

/-- The citations of an answer are sound exactly when every number that names no passage is
written as it prints, and none is put together from what the removals leave. -/
theorem citations_sound_iff {u : Unicode} (hu : u.ExtendsAscii) (reply : Text)
    (sent : List RetrievedChunk) : CitationsSound u reply sent ↔ TakenOut u reply sent := by
  rw [sound_iff_leftCited hu]
  constructor
  · intro h
    refine ⟨fun ds hds hword hout => ?_, fun w hopen hword hds => ?_⟩
    · have hself : ∀ ns, takeOut ns ds = ds := takeOut_self (hds.bare hu).1
      by_cases hup : ReadsAtTurn (strays u reply sent) ds
      · obtain ⟨ms, n, ls, -, hn⟩ := hup
        rw [hself] at hn
        rw [hn, number_printed hu]
      · exact absurd (h ds hds ((word_takeOut_iff (hds.bare hu)).mpr ⟨ds, hword, hself _, hup⟩)).1 hout
    · by_cases hup : ReadsAtTurn (strays u reply sent) w
      · exact .inr hup
      · exact .inl (h _ hds ((word_takeOut_iff (hds.bare hu)).mpr ⟨w, hword, rfl, hup⟩))
  · intro h ds hds hleft
    obtain ⟨w, hword, rfl, hup⟩ := (word_takeOut_iff (hds.bare hu)).mp hleft
    by_cases hopen : '[' ∈ w
    · exact (h.nested w hopen hword hds).resolve_right hup
    · rw [takeOut_self hopen] at hds ⊢
      have hmark : number u w ∈ markers u reply := (mem_markers hu).mpr ⟨w, hds, rfl, hword⟩
      refine ⟨by_contra fun hout => hup ?_, hmark⟩
      obtain ⟨ms, ls, hsplit⟩ := List.append_of_mem (mem_strays.mpr ⟨hmark, hout⟩)
      exact ⟨ms, _, ls, hsplit, by rw [takeOut_self hopen]; exact h.plain w hds hword hout⟩

theorem ascii_extendsAscii : ascii.ExtendsAscii where
  decimal _ _ := rfl
  isSpace := by decide

def citedReply : Text := "It fell [1], then rose [7] .".toList

/-- The marker of a passage that was not sent is taken out, and the other one is cited. -/
theorem cited_reply_taken_out : TakenOut ascii citedReply [headedChunk] := by
  refine (citations_sound_iff ascii_extendsAscii citedReply [headedChunk]).mp ⟨?_, ?_⟩
  · have hmarks : markers ascii (verifyCitations ascii citedReply [headedChunk]).1 = [1] := by
      decide +kernel
    have hcites : (verifyCitations ascii citedReply [headedChunk]).2.1.map Citation.marker = [1] := by
      decide +kernel
    intro n hn
    rw [hmarks] at hn
    obtain rfl := List.mem_singleton.mp hn
    exact ⟨⟨Nat.le_refl 1, Nat.le_refl 1⟩, by rw [hcites]; rfl⟩
  · exact citation_of_passage

/-- A marker with a leading zero is left in the answer, though no passage has its number. -/
theorem leading_zero_left : ¬ ∀ (u : Unicode) (reply : Text) (sent : List RetrievedChunk),
    u.ExtendsAscii → CitationsSound u reply sent := by
  intro h
  have hsound := h ascii "It fell [07].".toList [headedChunk] ascii_extendsAscii
  have hmark : 7 ∈ markers ascii (verifyCitations ascii "It fell [07].".toList [headedChunk]).1 := by
    decide +kernel
  exact absurd (hsound.markers 7 hmark).1.2 (by decide)

end AnswerService

end KnowledgeBase
