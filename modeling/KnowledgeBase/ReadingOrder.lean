import KnowledgeBase.Binary64
import KnowledgeBase.Extraction
import KnowledgeBase.Grouping

/-! The loose words of a picture put in reading order: lines, and blocks of lines. The places of the
words decide how they are grouped, whatever they are; that every word is kept once does not depend
on them, nor on how the arithmetic rounds. -/

namespace KnowledgeBase.Artifact

open Grouping

/-- The arithmetic of the machine on finite numbers, and what a decimal of the source stands for. -/
structure Arithmetic where
  add : ℚ → ℚ → ℚ
  sub : ℚ → ℚ → ℚ
  mul : ℚ → ℚ → ℚ
  div : ℚ → ℚ → ℚ
  sum : List ℚ → ℚ
  decimal : ℚ → ℚ

namespace TableImageReader

structure Word where
  text : Text
  score : ℚ
  x1 : ℚ
  y1 : ℚ
  x2 : ℚ
  y2 : ℚ
  deriving DecidableEq

/-- Text, how low it stands, left, right and the lowest score of a word. -/
structure Entry where
  text : Text
  y : ℚ
  left : ℚ
  right : ℚ
  score : ℚ

variable (m : Arithmetic)

def Word.cy (w : Word) : ℚ := m.div (m.add w.y1 w.y2) 2

def Word.height (w : Word) : ℚ := m.sub w.y2 w.y1

/-- From the top, then from the left. -/
def fromTop (v w : Word) : Prop := v.cy m < w.cy m ∨ v.cy m = w.cy m ∧ v.x1 ≤ w.x1

instance : DecidableRel (fromTop m) := fun _ _ => inferInstanceAs (Decidable (_ ∨ _ ∧ _))

def fromLeft (v w : Word) : Prop := v.x1 ≤ w.x1

instance : DecidableRel fromLeft := fun _ _ => inferInstanceAs (Decidable (_ ≤ _))

def mean (ys : List ℚ) : ℚ := m.div (m.sum ys) ys.length

/-- The height in the middle of all heights, or one. -/
def typical (words : List Word) : ℚ :=
  let height := (((words.map (Word.height m)).insertionSort (· ≤ ·))[words.length / 2]?).getD 0
  if height = 0 then 1 else height

/-- The word stands no lower than the row. -/
def sameRow (t : ℚ) (row : List Word) (w : Word) : Bool :=
  |m.sub (w.cy m) (mean m (row.map (Word.cy m)))| ≤ m.mul (m.decimal (6 / 10)) t

/-- The rows of words, each from left to right. -/
def rowsOf (words : List Word) : List (List Word) :=
  (group (sameRow m (typical m words)) (words.insertionSort (fromTop m))).map
    (·.insertionSort fromLeft)

def wordsText (words : List Word) : Text := join " " (words.map (·.text))

def leftOf (words : List Word) : ℚ := (words.head?.map (·.x1)).getD 0

def rightOf (words : List Word) : ℚ := (words.getLast?.map (·.x2)).getD 0

def lowest (words : List Word) : ℚ := ((words.map (·.score)).min?).getD 0

def groupLines (words : List Word) : List Entry :=
  (rowsOf m words).map fun line =>
    { text := wordsText line
      y := mean m (line.map (Word.cy m))
      left := leftOf line
      right := rightOf line
      score := lowest line }

/-- Text that is stacked: one part to a line. -/
structure Block where
  parts : List Text
  top : ℚ
  bottom : ℚ
  left : ℚ
  right : ℚ
  score : ℚ

/-- No wide gap stands between the words before and this one. -/
def noGap (t : ℚ) (piece : List Word) (w : Word) : Bool :=
  ¬ m.mul (m.decimal 2) t < m.sub w.x1 (rightOf piece)

/-- The piece stands right under the block and lines up with it. -/
def under (t cy left right : ℚ) (b : Block) : Bool :=
  0 < m.sub cy b.bottom ∧ m.sub cy b.bottom ≤ m.mul (m.decimal (18 / 10)) t ∧
    (m.mul (m.decimal (3 / 10)) (min (m.sub right left) (m.sub b.right b.left)) ≤
        m.sub (min right b.right) (max left b.left) ∨
      |m.sub left b.left| ≤ m.mul (m.decimal (15 / 10)) t)

/-- The piece goes into the last block it stands under, or begins one. -/
def place (t : ℚ) (blocks : List Block) (piece : List Word) : List Block :=
  let left := leftOf piece
  let right := rightOf piece
  let cy := mean m (piece.map (Word.cy m))
  let text := wordsText piece
  let score := lowest piece
  match updateLast (under m t cy left right) (fun b =>
      { b with
        parts := b.parts ++ [text]
        bottom := cy
        score := min b.score score
        left := min b.left left
        right := max b.right right }) blocks with
  | some blocks => blocks
  | none => blocks ++ [{ parts := [text], top := cy, bottom := cy, left, right, score }]

/-- By bands of three heights, then from the left. -/
def inReadingOrder (t : ℚ) (a b : Block) : Prop :=
  let band (c : Block) := Binary64.nearest (m.div c.top (m.mul 3 t))
  band a < band b ∨ band a = band b ∧ a.left ≤ b.left

instance (t : ℚ) : DecidableRel (inReadingOrder m t) :=
  fun _ _ => inferInstanceAs (Decidable (_ ∨ _ ∧ _))

def textBlocks (words : List Word) : List Entry :=
  let t := typical m words
  let pieces := (rowsOf m words).flatMap (group (noGap m t))
  ((pieces.foldl (place m t) []).insertionSort (inReadingOrder m t)).map fun b =>
    { text := join "\n" b.parts, y := b.bottom, left := b.left, right := b.right, score := b.score }

section Kept

variable {m}

/-- The score is the lowest of the words. -/
def LowestOf (words : List Word) (score : ℚ) : Prop :=
  IsLeast {q | ∃ w ∈ words, w.score = q} score

theorem lowest_spec {words : List Word} (h : words ≠ []) : LowestOf words (lowest words) := by
  obtain ⟨w, rest, rfl⟩ := List.exists_cons_of_ne_nil h
  obtain ⟨q, hq⟩ := Option.isSome_iff_exists.mp
    (List.isSome_min?_of_mem (List.mem_map_of_mem (f := (·.score)) (List.mem_cons_self (a := w))))
  obtain ⟨hmem, hle⟩ := List.min?_eq_some_iff.mp hq
  rw [lowest, hq, Option.getD_some]
  refine ⟨List.mem_map.mp hmem, ?_⟩
  rintro _ ⟨v, hv, rfl⟩
  exact hle _ (List.mem_map_of_mem hv)

theorem LowestOf.append {v w : List Word} {p q : ℚ} (hv : LowestOf v p) (hw : LowestOf w q) :
    LowestOf (v ++ w) (min p q) := by
  have hset : {q | ∃ a ∈ v ++ w, a.score = q} =
      {q | ∃ a ∈ v, a.score = q} ∪ {q | ∃ a ∈ w, a.score = q} := by
    ext q
    simp only [List.mem_append, Set.mem_ofPred_eq, Set.mem_union, or_and_right, exists_or]
  rw [LowestOf, hset]
  exact hv.union hw

theorem rowsOf_spec (words : List Word) :
    (rowsOf m words).flatten.Perm words ∧ ∀ row ∈ rowsOf m words, row ≠ [] := by
  obtain ⟨groups, hgroups⟩ : ∃ groups, groups = group (sameRow m (typical m words))
    (words.insertionSort (fromTop m)) := ⟨_, rfl⟩
  have hflat : groups.flatten = words.insertionSort (fromTop m) := by rw [hgroups, flatten_group]
  rw [rowsOf, ← hgroups]
  constructor
  · have hsorted : (groups.map (·.insertionSort fromLeft)).flatten.Perm groups.flatten := by
      clear hgroups hflat
      induction groups with
      | nil => exact .refl _
      | cons g groups ih =>
        rw [List.map_cons, List.flatten_cons, List.flatten_cons]
        exact (List.perm_insertionSort _ g).append ih
    rw [hflat] at hsorted
    exact hsorted.trans (List.perm_insertionSort _ words)
  · intro row hrow
    obtain ⟨g, hg, rfl⟩ := List.mem_map.mp hrow
    rw [hgroups] at hg
    intro hnil
    have hlen := (List.perm_insertionSort fromLeft g).length_eq
    rw [hnil, List.length_nil] at hlen
    exact group_ne_nil hg (List.length_eq_zero_iff.mp hlen.symm)

/-- A line is the words it joins. -/
structure LineOf (e : Entry) (line : List Word) : Prop where
  text : e.text = wordsText line
  score : LowestOf line e.score

/-- A block is the pieces it stacks. -/
structure BlockOf (b : Block) (pieces : List (List Word)) : Prop where
  parts : b.parts = pieces.map wordsText
  score : LowestOf pieces.flatten b.score

theorem exists_split {R : Block → List (List Word) → Prop} {x y : List Block} {b : Block}
    {groups : List (List (List Word))} (h : List.Forall₂ R (x ++ b :: y) groups) :
    ∃ gx g gy, groups = gx ++ g :: gy ∧ List.Forall₂ R x gx ∧ R b g ∧ List.Forall₂ R y gy := by
  induction x generalizing groups with
  | nil =>
    obtain ⟨g, gy, hg, hy, rfl⟩ := List.forall₂_cons_left_iff.mp h
    exact ⟨[], g, gy, rfl, .nil, hg, hy⟩
  | cons c x ih =>
    obtain ⟨gc, rest, hc, hrest, rfl⟩ := List.forall₂_cons_left_iff.mp h
    obtain ⟨gx, g, gy, rfl, hx, hg, hy⟩ := ih hrest
    exact ⟨gc :: gx, g, gy, rfl, .cons hc hx, hg, hy⟩

/-- A piece is placed in one of the blocks, or in one of its own. -/
theorem place_spec {t : ℚ} {blocks : List Block} {groups : List (List (List Word))}
    (h : List.Forall₂ BlockOf blocks groups) {piece : List Word} (hne : piece ≠ []) :
    ∃ groups', List.Forall₂ BlockOf (place m t blocks piece) groups' ∧
      groups'.flatten.Perm (groups.flatten ++ [piece]) := by
  unfold place
  dsimp only
  split
  · rename_i blocks' hup
    obtain ⟨x, b, y, rfl, rfl⟩ := updateLast_eq_some hup
    obtain ⟨gx, g, gy, rfl, hx, hb, hy⟩ := exists_split h
    refine ⟨gx ++ (g ++ [piece]) :: gy, List.rel_append hx (.cons ⟨?_, ?_⟩ hy), ?_⟩
    · simp [hb.parts]
    · rw [List.flatten_append, List.flatten_singleton]
      exact hb.score.append (lowest_spec hne)
    · have hmove : (piece :: gy.flatten).Perm (gy.flatten ++ [piece]) :=
        (List.perm_append_singleton piece gy.flatten).symm
      simpa using (hmove.append_left g).append_left gx.flatten
  · refine ⟨groups ++ [[piece]], List.rel_append h (.cons ⟨rfl, ?_⟩ .nil), by simp⟩
    rw [List.flatten_singleton]
    exact lowest_spec hne

theorem foldl_place {t : ℚ} {blocks : List Block} {groups : List (List (List Word))}
    (h : List.Forall₂ BlockOf blocks groups) {pieces : List (List Word)}
    (hne : ∀ piece ∈ pieces, piece ≠ []) :
    ∃ groups', List.Forall₂ BlockOf (pieces.foldl (place m t) blocks) groups' ∧
      groups'.flatten.Perm (groups.flatten ++ pieces) := by
  induction pieces generalizing blocks groups with
  | nil => exact ⟨groups, h, by rw [List.append_nil]⟩
  | cons piece pieces ih =>
    obtain ⟨hpiece, hpieces⟩ := List.forall_mem_cons.mp hne
    obtain ⟨groups', hplaced, hperm⟩ := place_spec (m := m) (t := t) h hpiece
    obtain ⟨groups'', hall, hperm'⟩ := ih hplaced hpieces
    have hstep := hperm.append_right pieces
    rw [List.append_assoc, List.singleton_append] at hstep
    exact ⟨groups'', hall, hperm'.trans hstep⟩

theorem lines_kept (words : List Word) :
    ∃ lines, List.Forall₂ LineOf (groupLines m words) lines ∧ lines.flatten.Perm words := by
  obtain ⟨hperm, hne⟩ := rowsOf_spec (m := m) words
  refine ⟨rowsOf m words, ?_, hperm⟩
  rw [groupLines, List.forall₂_map_left_iff, List.forall₂_same]
  exact fun row hrow => ⟨rfl, lowest_spec (hne row hrow)⟩

theorem blocks_kept (words : List Word) : ∃ blocks : List (List (List Word)),
    List.Forall₂ (fun e pieces => e.text = join "\n" (pieces.map wordsText) ∧
      LowestOf pieces.flatten e.score) (textBlocks m words) blocks ∧
        blocks.flatten.flatten.Perm words := by
  obtain ⟨hperm, -⟩ := rowsOf_spec (m := m) words
  have hpieces : ((rowsOf m words).flatMap (group (noGap m (typical m words)))).flatten =
      (rowsOf m words).flatten := by
    induction rowsOf m words with
    | nil => rfl
    | cons row rows ih =>
      rw [List.flatMap_cons, List.flatten_append, flatten_group, ih, List.flatten_cons]
  have hne : ∀ piece ∈ (rowsOf m words).flatMap (group (noGap m (typical m words))), piece ≠ [] := by
    intro piece hpiece
    obtain ⟨row, -, hin⟩ := List.mem_flatMap.mp hpiece
    exact group_ne_nil hin
  obtain ⟨groups, hgroups, hplaced⟩ := foldl_place (m := m) (t := typical m words) .nil hne
  obtain ⟨sorted, hsorted, hsort⟩ := List.perm_comp_forall₂
    (List.perm_insertionSort (inReadingOrder m (typical m words)) _) hgroups
  refine ⟨sorted, ?_, ?_⟩
  · rw [textBlocks, List.forall₂_map_left_iff]
    exact hsorted.imp fun b g h => ⟨by rw [h.parts], h.score⟩
  · rw [List.flatten_nil, List.nil_append] at hplaced
    have hflat := (hsort.flatten.trans hplaced).flatten
    rw [hpieces] at hflat
    exact hflat.trans hperm

end Kept

end TableImageReader

end KnowledgeBase.Artifact
