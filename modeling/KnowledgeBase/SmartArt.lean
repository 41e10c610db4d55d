import KnowledgeBase.Table
import KnowledgeBase.TableRows

/-! The text of a SmartArt graphic: its top-level nodes in a row, then each node with what it
contains. A label is written where its node is at the top, under a labelled node or over one. -/

namespace KnowledgeBase.Artifact

open Table

inductive PointType where
  | doc
  | node
  | asst
  | other
  deriving DecidableEq

structure ModelPoint where
  modelId : Text
  type : PointType := .node
  label : Text
  deriving DecidableEq

/-- `parent`: of the type `parOf`. -/
structure Connection where
  parent : Bool := true
  source : Text
  dest : Text
  order : Int := 0

structure DataModel where
  points : List ModelPoint
  connections : List Connection

namespace SmartArt

variable (m : DataModel)

def Labelled (p : ModelPoint) : Prop := (p.type = .node ∨ p.type = .asst) ∧ p.label ≠ []

instance (p : ModelPoint) : Decidable (Labelled p) := inferInstanceAs (Decidable (_ ∧ _))

/-- The labels by node. -/
def text : List (Text × Text) :=
  m.points.foldl (fun d p => if Labelled p then put d p.modelId p.label else d) []

/-- `doc_id`, where it is not empty. -/
def docId : Option Text :=
  truthy ((m.points.reverse.find? (·.type = .doc)).map (·.modelId))

/-- The order of the pairs in the list of children. -/
def childLe (a b : Int × Text) : Bool := a.1 < b.1 || (a.1 = b.1 && decide (a.2 ≤ b.2))

def children (node : Text) : List (Int × Text) :=
  (m.connections.filter fun c => c.parent && c.source = node && (get (text m) c.dest).isSome).map
    fun c => (c.order, c.dest)

def kids (node : Text) : List Text :=
  ((children m node).mergeSort childLe).filterMap fun c => get (text m) c.2

inductive Line where
  | sequence (labels : List Text)
  | contains (label : Text) (below : List Text)

def Line.labels : Line → List Text
  | .sequence labels => labels
  | .contains label below => label :: below

def Line.render : Line → Text
  | .sequence labels => join " → " labels
  | .contains label below => label ++ ": ".toList ++ join "; " below

def top : List Text :=
  match docId m with
  | none => (text m).map (·.2)
  | some doc => kids m doc

def lines : List Line :=
  (if top m = [] then [] else [.sequence (top m)]) ++
    (text m).filterMap fun e => if kids m e.1 = [] then none else some (.contains e.2 (kids m e.1))

def smartartLines : List Text := (lines m).map Line.render

/-- A node at the top, under a labelled node or over one. -/
def Reached (id : Text) : Prop :=
  docId m = none ∨ ∃ c ∈ m.connections, c.parent = true ∧
    ((c.dest = id ∧ (docId m = some c.source ∨ (get (text m) c.source).isSome)) ∨
      c.source = id ∧ (get (text m) c.dest).isSome)

variable {m}

theorem text_nodup : ((text m).map Prod.fst).Nodup := by
  have h : ∀ (ps : List ModelPoint) (d : List (Text × Text)), (d.map Prod.fst).Nodup →
      ((ps.foldl (fun d p => if Labelled p then put d p.modelId p.label else d) d).map
        Prod.fst).Nodup := by
    intro ps
    induction ps with
    | nil => exact fun _ hd => hd
    | cons p ps ih =>
      intro d hd
      apply ih
      dsimp only
      split
      · exact nodup_put hd _ _
      · exact hd
  exact h _ _ (by simp)

theorem mem_text {e : Text × Text} : e ∈ text m ↔ get (text m) e.1 = some e.2 :=
  mem_iff_get text_nodup

theorem mem_kids {node label : Text} : label ∈ kids m node ↔ ∃ c ∈ m.connections,
    c.parent = true ∧ c.source = node ∧ get (text m) c.dest = some label := by
  simp only [kids, List.mem_filterMap, List.mem_mergeSort, children, List.mem_map, List.mem_filter,
    Bool.and_eq_true, decide_eq_true_eq]
  constructor
  · rintro ⟨-, ⟨c, ⟨hc, ⟨hparent, hsource⟩, -⟩, rfl⟩, hlabel⟩
    exact ⟨c, hc, hparent, hsource, hlabel⟩
  · rintro ⟨c, hc, hparent, hsource, hlabel⟩
    exact ⟨_, ⟨c, ⟨hc, ⟨hparent, hsource⟩, by simp [hlabel]⟩, rfl⟩, hlabel⟩

theorem kids_ne_nil_iff {node : Text} : kids m node ≠ [] ↔ ∃ c ∈ m.connections,
    c.parent = true ∧ c.source = node ∧ (get (text m) c.dest).isSome := by
  constructor
  · intro h
    obtain ⟨label, hlabel⟩ := List.exists_mem_of_ne_nil _ h
    obtain ⟨c, hc, hparent, hsource, hdest⟩ := mem_kids.mp hlabel
    exact ⟨c, hc, hparent, hsource, by simp [hdest]⟩
  · rintro ⟨c, hc, hparent, hsource, hdest⟩
    obtain ⟨label, hlabel⟩ := Option.isSome_iff_exists.mp hdest
    exact List.ne_nil_of_mem (mem_kids.mpr ⟨c, hc, hparent, hsource, hlabel⟩)

/-- The labels that are written are those of the nodes that are reached. -/
theorem mem_lines_iff {label : Text} : (∃ line ∈ lines m, label ∈ line.labels) ↔
    ∃ e ∈ text m, e.2 = label ∧ Reached m e.1 := by
  constructor
  · rintro ⟨line, hline, hlabel⟩
    rcases List.mem_append.mp hline with hline | hline
    · split at hline
      · cases hline
      · rw [List.mem_singleton.mp hline] at hlabel
        change label ∈ top m at hlabel
        unfold top at hlabel
        split at hlabel
        · rename_i hdoc
          obtain ⟨e, he, rfl⟩ := List.mem_map.mp hlabel
          exact ⟨e, he, rfl, .inl hdoc⟩
        · rename_i doc hdoc
          obtain ⟨c, hc, hparent, rfl, hdest⟩ := mem_kids.mp hlabel
          exact ⟨(c.dest, label), mem_text.mpr hdest, rfl,
            .inr ⟨c, hc, hparent, .inl ⟨rfl, .inl hdoc⟩⟩⟩
    · obtain ⟨e, he, hsome⟩ := List.mem_filterMap.mp hline
      split at hsome
      · cases hsome
      · rename_i hkids
        obtain rfl := Option.some.inj hsome
        rcases List.mem_cons.mp hlabel with rfl | hlabel
        · obtain ⟨c, hc, hparent, hsource, hdest⟩ := kids_ne_nil_iff.mp hkids
          exact ⟨e, he, rfl, .inr ⟨c, hc, hparent, .inr ⟨hsource, hdest⟩⟩⟩
        · obtain ⟨c, hc, hparent, hsource, hdest⟩ := mem_kids.mp hlabel
          refine ⟨(c.dest, label), mem_text.mpr hdest, rfl,
            .inr ⟨c, hc, hparent, .inl ⟨rfl, .inr ?_⟩⟩⟩
          rw [hsource, mem_text.mp he]
          rfl
  · rintro ⟨⟨id, label⟩, he, rfl, hreached⟩
    have hget := mem_text.mp he
    have htop : label ∈ top m → ∃ line ∈ lines m, label ∈ line.labels := by
      intro h
      refine ⟨.sequence (top m), List.mem_append_left _ ?_, h⟩
      rw [if_neg (List.ne_nil_of_mem h)]
      exact List.mem_singleton_self _
    have hbelow : ∀ e ∈ text m, kids m e.1 ≠ [] → label = e.2 ∨ label ∈ kids m e.1 →
        ∃ line ∈ lines m, label ∈ line.labels := by
      intro e he hkids h
      refine ⟨.contains e.2 (kids m e.1), List.mem_append_right _
        (List.mem_filterMap.mpr ⟨e, he, if_neg hkids⟩), List.mem_cons.mpr h⟩
    rcases hreached with hdoc | ⟨c, hc, hparent, ⟨rfl, hdoc | hsource⟩ | ⟨rfl, hdest⟩⟩
    · apply htop
      rw [top, hdoc]
      exact List.mem_map_of_mem he
    · apply htop
      rw [top, hdoc]
      exact mem_kids.mpr ⟨c, hc, hparent, rfl, hget⟩
    · obtain ⟨above, habove⟩ := Option.isSome_iff_exists.mp hsource
      have hkid : label ∈ kids m c.source := mem_kids.mpr ⟨c, hc, hparent, rfl, hget⟩
      exact hbelow (c.source, above) (mem_text.mpr habove) (List.ne_nil_of_mem hkid) (.inr hkid)
    · exact hbelow _ he (kids_ne_nil_iff.mpr ⟨c, hc, hparent, rfl, hdest⟩) (.inl rfl)

theorem label_infix_render {line : Line} {label : Text} (h : label ∈ line.labels) :
    label <:+: line.render := by
  cases line with
  | sequence labels => exact infix_join h
  | contains above below =>
    rcases List.mem_cons.mp h with rfl | h
    · exact (List.prefix_append _ _).isInfix.trans (List.prefix_append _ _).isInfix
    · exact (infix_join h).trans (List.suffix_append _ _).isInfix

/-- Every label is written on some line exactly where every labelled point has the label of a node
that is reached, and then it occurs in the text of that line. -/
theorem labels_written_iff (m : DataModel) :
    ((∀ p ∈ m.points, Labelled p → ∃ line ∈ lines m, p.label ∈ line.labels) ↔
      ∀ p ∈ m.points, Labelled p → ∃ e ∈ text m, e.2 = p.label ∧ Reached m e.1) ∧
    ((∀ p ∈ m.points, Labelled p → ∃ line ∈ lines m, p.label ∈ line.labels) →
      ∀ p ∈ m.points, Labelled p → ∃ line ∈ smartartLines m, p.label <:+: line) := by
  constructor
  · simp only [mem_lines_iff]
  · intro h p hp hlabelled
    obtain ⟨line, hline, hlabel⟩ := h p hp hlabelled
    exact ⟨_, List.mem_map_of_mem hline, label_infix_render hlabel⟩

/-- A box under one without text. -/
def unlabelledParent : DataModel :=
  { points := [{ modelId := "0".toList, type := .doc, label := [] },
      { modelId := "1".toList, label := [] }, { modelId := "2".toList, label := "Delhi".toList }],
    connections := [{ source := "0".toList, dest := "1".toList },
      { source := "1".toList, dest := "2".toList }] }

theorem unlabelled_parent_hides : ¬ ∀ p ∈ unlabelledParent.points, Labelled p →
    ∃ line ∈ smartartLines unlabelledParent, p.label <:+: line := by
  intro h
  obtain ⟨line, hline, -⟩ := h { modelId := "2".toList, label := "Delhi".toList } (by decide)
    (by decide)
  have hnone : smartartLines unlabelledParent = [] := by decide +kernel
  rw [hnone] at hline
  cases hline

end SmartArt

end KnowledgeBase.Artifact
