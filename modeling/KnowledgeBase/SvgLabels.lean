import KnowledgeBase.Forest
import KnowledgeBase.Pipeline
import KnowledgeBase.Redaction
import KnowledgeBase.Table

/-! A drawing and its sideways text, drawn apart. The elements are taken out of one tree by identity
and pruned out of another; both come of the same picture. -/

namespace KnowledgeBase.Artifact

namespace PictureSource

open Regex Recognizers

/-- A node of the tree; `id` tells it from the others. A comment has no name. -/
structure Element where
  id : Nat
  tag : Option String
  attributes : List (String × Text)
  text : Text
  tail : Text

structure Tree where
  root : Element
  children : Forest Element

/-- The tree of a file that was read. -/
structure Document extends Tree where
  distinct : ((Forest.preorder children).map Element.id).Nodup

/-- Reading a file, and writing a tree. -/
structure Xml where
  fromstring : Bytes → Option Document
  tostring : Tree → Bytes

def svgName (name : String) : String := s!"\x7bhttp://www.w3.org/2000/svg\x7d{name}"

variable (u : Unicode)

/-- `rotate\(\s*-?(?:90|270)\b`. -/
def rotatedPattern : Regex Char :=
  concat ("rotate(".toList.map lit ++ [star (cls u.isSpace), opt (lit '-'),
    alt (seq (lit '9') (lit '0')) (concat [lit '2', lit '7', lit '0']), boundary u])

def rotated (el : Element) : Bool :=
  el.tag = some (svgName "text") &&
    !((rotatedPattern u).finditer ((Table.get el.attributes "transform").getD [])).isEmpty

def isDefs (el : Element) : Bool := el.tag = some (svgName "defs")

def Tree.iter (t : Tree) : List Element := t.root :: Forest.preorder t.children

/-- The element goes from where it stands, with what it contains and the text after it. -/
def remove (f : Forest Element) (id : Nat) : Forest Element := f.strike (fun el => el.id = id)

/-- The drawing without its sideways text, and that text alone. -/
def splitRotatedLabels (xml : Xml) (svg : Bytes) : Option (Bytes × Option Bytes) :=
  match xml.fromstring svg with
  | none => none
  | some doc =>
    if !doc.iter.any (rotated u) then some (svg, none)
    -- the root is in no element that it could be removed from
    else if rotated u doc.root then none
    else
      let drawing := ((doc.iter.filter (rotated u)).map Element.id).foldl remove doc.children
      let labels := doc.children.prune isDefs (rotated u)
      some (xml.tostring ⟨doc.root, drawing⟩, some (xml.tostring ⟨doc.root, labels⟩))

/-- How the two drawings divide the input. -/
structure Divides (input drawing labels : Tree) : Prop where
  roots : drawing.root = input.root ∧ labels.root = input.root
  drawn : drawing.children = input.children.strike (rotated u)
  kept : labels.children.marked (rotated u) = input.children.marked (rotated u)
  inside : (Forest.preorder labels.children).Sublist (Forest.preorder input.children)
  leaves : ∀ el ∈ labels.children.outside (fun el => isDefs el || rotated u el),
    el ∉ input.children.leaves
  apart : ∀ el ∈ Forest.preorder drawing.children, rotated u el = false

section Split

variable {u}

theorem rotated_tag {el : Element} (h : rotated u el = true) : el.tag = some (svgName "text") := by
  rw [rotated, Bool.and_eq_true, decide_eq_true_eq] at h
  exact h.1

theorem svg_not_rotated {el : Element} (h : el.tag = some (svgName "svg")) : rotated u el = false := by
  rw [Bool.eq_false_iff]
  intro hrot
  rw [rotated_tag hrot, Option.some.injEq] at h
  exact absurd h (by decide)

/-- Removing the sideways text one element after the other leaves the tree without it. -/
theorem foldl_remove {f : Forest Element} (h : ((Forest.preorder f).map Element.id).Nodup) :
    (((Forest.preorder f).filter (rotated u)).map Element.id).foldl remove f =
      f.strike (rotated u) := by
  have hfold := Forest.foldl_strike (fun id (el : Element) => decide (el.id = id))
    (((Forest.preorder f).filter (rotated u)).map Element.id) f
  refine hfold.trans (Forest.strike_congr fun el hel => ?_)
  rw [Bool.eq_iff_iff, List.any_eq_true]
  simp only [List.mem_map, List.mem_filter, decide_eq_true_eq]
  constructor
  · rintro ⟨_, ⟨el', ⟨hel', hrot⟩, rfl⟩, hid⟩
    rwa [List.inj_on_of_nodup_map h hel hel' hid]
  · intro hrot
    exact ⟨el.id, ⟨el, ⟨hel, hrot⟩, rfl⟩, rfl⟩

/-- A picture is left as it is or divided. -/
theorem split_divides (xml : Xml) {svg : Bytes} {doc : Document}
    (hread : xml.fromstring svg = some doc) (hroot : doc.root.tag = some (svgName "svg")) :
    (∀ el ∈ doc.iter, rotated u el = false) ∧ splitRotatedLabels u xml svg = some (svg, none) ∨
      (∃ el ∈ doc.iter, rotated u el = true) ∧ ∃ drawing labels,
        splitRotatedLabels u xml svg = some (xml.tostring drawing, some (xml.tostring labels)) ∧
          Divides u doc.toTree drawing labels := by
  have hflat := svg_not_rotated (u := u) hroot
  rw [splitRotatedLabels, hread]
  dsimp only
  by_cases hany : doc.iter.any (rotated u) = true
  · refine .inr ⟨List.any_eq_true.mp hany, _, _, by rw [hany, hflat]; rfl, ?_⟩
    have hdrawing : ((doc.iter.filter (rotated u)).map Element.id).foldl remove doc.children =
        doc.children.strike (rotated u) := by
      rw [Tree.iter, List.filter_cons_of_neg (by simp [hflat]), foldl_remove doc.distinct]
    exact
      { roots := ⟨rfl, rfl⟩
        drawn := hdrawing
        kept := Forest.marked_prune _ _ _
        inside := Forest.preorder_prune _ _ _
        leaves := fun el hel => Forest.not_leaf_of_prune doc.distinct.of_map hel
        apart := fun el hel => Forest.not_of_mem_strike (hdrawing ▸ hel) }
  · refine .inl ⟨?_, by simp [hany]⟩
    simpa using hany

end Split

section Sideways

def localName (el : Element) : Text := ((el.tag.getD "").toList.dropWhile (· ≠ '\x7d')).drop 1

def writtenAttribute (entry : String × Text) : Text :=
  ' ' :: entry.1.toList ++ '=' :: '\x22' :: entry.2 ++ ['\x22']

def written : Forest Element → Text
  | .nil => []
  | .node el .nil rest =>
    '<' :: localName el ++ el.attributes.flatMap writtenAttribute ++
      (if el.text.isEmpty then "/>".toList else
        '>' :: el.text ++ "</".toList ++ localName el ++ ['>']) ++ el.tail ++ written rest
  | .node el (.node first children after) rest =>
    '<' :: localName el ++ el.attributes.flatMap writtenAttribute ++ '>' :: el.text ++
      written (.node first children after) ++ "</".toList ++ localName el ++ '>' :: el.tail ++
      written rest

/-- A cell with a month drawn sideways over it. -/
def sideways : Tree where
  root := ⟨0, some (svgName "svg"), [], [], []⟩
  children := .node ⟨1, some (svgName "g"), [], [], []⟩
    (.node ⟨2, some (svgName "rect"), [("width", ['9'])], [], []⟩ .nil
      (.node ⟨3, some (svgName "text"), [("transform", "rotate(-90)".toList)], "April".toList, []⟩ .nil
        (.node ⟨4, some (svgName "text"), [], "5.9".toList, []⟩ .nil .nil))) .nil

theorem sideways_distinct : ((Forest.preorder sideways.children).map Element.id).Nodup := by decide

def writtenTree (t : Tree) : Bytes :=
  (written (.node { t.root with attributes :=
      ("xmlns", "http://www.w3.org/2000/svg".toList) :: t.root.attributes } t.children .nil)).map
    fun c => UInt8.ofNat c.toNat

def sidewaysXml : Xml where
  fromstring svg :=
    if svg = writtenTree sideways then some ⟨sideways, sideways_distinct⟩ else none
  tostring := writtenTree

theorem sideways_divided : ∃ drawing labels,
    splitRotatedLabels ascii sidewaysXml (writtenTree sideways) =
        some (writtenTree drawing, some (writtenTree labels)) ∧
      Divides ascii sideways drawing labels := by
  have hread : sidewaysXml.fromstring (writtenTree sideways) =
      some ⟨sideways, sideways_distinct⟩ := by
    simp [sidewaysXml]
  rcases split_divides (u := ascii) sidewaysXml hread rfl with ⟨hflat, -⟩ | ⟨-, hdivided⟩
  · exact absurd (hflat ⟨3, some (svgName "text"), [("transform", "rotate(-90)".toList)],
      "April".toList, []⟩ (by simp [Tree.iter, sideways, Forest.preorder])) (by decide)
  · exact hdivided

end Sideways

end PictureSource

end KnowledgeBase.Artifact
