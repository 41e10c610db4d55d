import Mathlib
import KnowledgeBase.Regex

/-! The recognizers of sensitive values and the search that runs them in order over
a text. The tables of the Unicode standard are a parameter. -/

namespace KnowledgeBase

abbrev Text := List Char

/-- What the pattern classes and `int` read of a character. -/
structure Unicode where
  decimal : Char → Option Nat
  isAlnum : Char → Bool
  isSpace : Char → Bool

namespace Unicode

variable (u : Unicode)

def isDigit (c : Char) : Bool := (u.decimal c).isSome

def isWord (c : Char) : Bool := u.isAlnum c || c = '_'

def value (c : Char) : Nat := (u.decimal c).getD 0

end Unicode

def asciiUpper (c : Char) : Bool := 'A' ≤ c && c ≤ 'Z'

def asciiLetter (c : Char) : Bool := asciiUpper c || ('a' ≤ c && c ≤ 'z')

def asciiDigit (c : Char) : Bool := '0' ≤ c && c ≤ '9'

namespace Recognizers

open Regex

variable (u : Unicode)

/-- `re.sub(r"\D", "", text)`. -/
def digits (text : Text) : Text := text.filter u.isDigit

def luhnDigit (parity i d : Nat) : Nat :=
  if i % 2 = parity then if 9 < 2 * d then 2 * d - 9 else 2 * d else d

/-- The check digit every payment card carries. -/
def luhn (text : Text) : Bool :=
  let ds := (digits u text).map u.value
  if ds.length < 12 then false
  else (ds.mapIdx (luhnDigit (ds.length % 2))).sum % 10 = 0

def verhoeffD : List (List Nat) :=
  [[0, 1, 2, 3, 4, 5, 6, 7, 8, 9], [1, 2, 3, 4, 0, 6, 7, 8, 9, 5],
   [2, 3, 4, 0, 1, 7, 8, 9, 5, 6], [3, 4, 0, 1, 2, 8, 9, 5, 6, 7],
   [4, 0, 1, 2, 3, 9, 5, 6, 7, 8], [5, 9, 8, 7, 6, 0, 4, 3, 2, 1],
   [6, 5, 9, 8, 7, 1, 0, 4, 3, 2], [7, 6, 5, 9, 8, 2, 1, 0, 4, 3],
   [8, 7, 6, 5, 9, 3, 2, 1, 0, 4], [9, 8, 7, 6, 5, 4, 3, 2, 1, 0]]

def verhoeffP : List (List Nat) :=
  [[0, 1, 2, 3, 4, 5, 6, 7, 8, 9], [1, 5, 7, 6, 2, 8, 3, 0, 9, 4],
   [5, 8, 0, 3, 7, 9, 6, 1, 4, 2], [8, 9, 1, 6, 0, 4, 3, 5, 2, 7],
   [9, 4, 5, 3, 1, 2, 6, 8, 7, 0], [4, 2, 8, 6, 5, 7, 3, 9, 0, 1],
   [2, 7, 9, 3, 8, 0, 6, 4, 1, 5], [7, 0, 4, 6, 9, 1, 3, 2, 5, 8]]

def entry (table : List (List Nat)) (i j : Nat) : Nat := (table.getD i []).getD j 0

/-- The check digit of an Aadhaar number, which never begins 0 or 1. -/
def verhoeff (text : Text) : Bool :=
  let ds := digits u text
  if ds.length ≠ 12 then false
  else if ds.head?.any (fun c => c = '0' || c = '1') then false
  else ds.reverse.zipIdx.foldl
    (fun c d => entry verhoeffD c (entry verhoeffP (d.2 % 8) (u.value d.1))) 0 = 0

/-- A trunk zero and ten digits; `+91` may stand where the zero would. -/
def plausibleLandline (text : Text) : Bool :=
  let ds := digits u text
  let ds := if ['9', '1'].isPrefixOf ds && ds.length = 12 then '0' :: ds.drop 2 else ds
  ds.length = 11 && ds[0]? = some '0' && ds[1]? ≠ some '0'

/-- Ten digits starting 6 to 9, after a country code or a trunk zero. -/
def plausiblePhone (text : Text) : Bool :=
  let ds := digits u text
  let ds :=
    if ['9', '1'].isPrefixOf ds && ds.length = 12 then ds.drop 2
    else if ['0'].isPrefixOf ds && ds.length = 11 then ds.drop 1
    else ds
  ds.length = 10 && ds.head?.any (fun c => ['6', '7', '8', '9'].contains c)

def digit : Regex Char := cls u.isDigit
def upper : Regex Char := cls asciiUpper
def upperOrDigit : Regex Char := cls (fun c => asciiUpper c || asciiDigit c)
def lit (c : Char) : Regex Char := cls (· = c)
def spaceOrHyphen : Regex Char := cls (fun c => c = ' ' || c = '-')
def blankOrHyphen : Regex Char := cls (fun c => u.isSpace c || c = '-')

/-- `\b`. -/
def boundary : Regex Char := look (fun a b => a.any u.isWord != b.any u.isWord)

def gstinPattern : Regex Char :=
  concat [boundary u, times (digit u) 2, times upper 5, times (digit u) 4, upper,
    upperOrDigit, lit 'Z', upperOrDigit, boundary u]

def panPattern : Regex Char :=
  concat [boundary u, times upper 5, times (digit u) 4, upper, boundary u]

def aadhaarPattern : Regex Char :=
  concat [boundary u, times (digit u) 4, opt spaceOrHyphen, times (digit u) 4,
    opt spaceOrHyphen, times (digit u) 4, boundary u]

def creditCardPattern : Regex Char :=
  concat [boundary u, rep (seq (digit u) (opt spaceOrHyphen)) 12 18, digit u, boundary u]

/-- `+91` and at most one blank or hyphen. -/
def countryCode : Regex Char :=
  concat [lit '+', lit '9', lit '1', opt (blankOrHyphen u)]

def landlinePattern : Regex Char :=
  concat [opt (countryCode u), opt (lit '0'), rep (digit u) 2 4, opt (blankOrHyphen u),
    rep (digit u) 3 4, opt (blankOrHyphen u), rep (digit u) 3 5, boundary u]

def ifscPattern : Regex Char :=
  concat [boundary u, times upper 4, lit '0', times upperOrDigit 6, boundary u]

def emailPattern : Regex Char :=
  let host := plus (cls (fun c => u.isWord c || c = '-'))
  concat [boundary u, plus (cls (fun c => u.isWord c || ['.', '%', '+', '-'].contains c)),
    lit '@', host, star (seq (lit '.') host), lit '.', times (cls asciiLetter) 2,
    star (cls asciiLetter), boundary u]

def mobilePattern : Regex Char :=
  alt
    (concat [opt (alt (countryCode u) (seq (boundary u) (lit '0'))),
      cls (fun c => '6' ≤ c && c ≤ '9'), times (digit u) 4, opt (blankOrHyphen u),
      times (digit u) 5, boundary u])
    (concat [countryCode u, times (digit u) 10, boundary u])

end Recognizers

structure Recognizer where
  label : String
  pattern : Regex Char
  validate : Option (Text → Bool)

open Recognizers in
/-- A GSTIN embeds a PAN, so it is tried first; landlines come before the mobile
pattern, which would take their leading zero. -/
def recognizers (u : Unicode) : List Recognizer :=
  [⟨"GSTIN", gstinPattern u, none⟩,
   ⟨"PAN", panPattern u, none⟩,
   ⟨"AADHAAR", aadhaarPattern u, some (verhoeff u)⟩,
   ⟨"CREDIT_CARD", creditCardPattern u, some (luhn u)⟩,
   ⟨"PHONE", landlinePattern u, some (plausibleLandline u)⟩,
   ⟨"IFSC", ifscPattern u, none⟩,
   ⟨"EMAIL", emailPattern u, none⟩,
   ⟨"PHONE", mobilePattern u, some (plausiblePhone u)⟩]

structure Finding where
  label : String
  start : Nat
  stop : Nat
  text : Text
  deriving DecidableEq, Repr

def Finding.span (f : Finding) : Nat × Nat := (f.start, f.stop)

def slice (t : List α) (a b : Nat) : List α := (t.take b).drop a

namespace Recognizer

def accepts (r : Recognizer) (value : Text) : Bool := r.validate.all (· value)

def finding (r : Recognizer) (text : Text) (m : Nat × Nat) : Finding :=
  ⟨r.label, m.1, m.2, slice text m.1 m.2⟩

end Recognizer

def overlaps (m c : Nat × Nat) : Bool := m.1 < c.2 && c.1 < m.2

theorem overlaps_eq_false_iff {m c : Nat × Nat} :
    overlaps m c = false ↔ c.2 ≤ m.1 ∨ m.2 ≤ c.1 := by
  rw [overlaps, Bool.and_eq_false_iff, decide_eq_false_iff_not, decide_eq_false_iff_not]
  omega

/-- One candidate: dropped when it overlaps a claimed span, then when its value
fails the recognizer's test. -/
def claimSpan (text : Text) (r : Recognizer) (acc : List Finding × List (Nat × Nat))
    (m : Nat × Nat) : List Finding × List (Nat × Nat) :=
  if acc.2.any (overlaps m) then acc
  else if !r.accepts (slice text m.1 m.2) then acc
  else (acc.1 ++ [r.finding text m], acc.2 ++ [m])

def claimSpans (text : Text) (acc : List Finding × List (Nat × Nat)) (r : Recognizer) :
    List Finding × List (Nat × Nat) :=
  (r.pattern.finditer text).foldl (claimSpan text r) acc

/-- The findings in the order they are made, before they are sorted. -/
def claimed (text : Text) (rs : List Recognizer) : List Finding × List (Nat × Nat) :=
  rs.foldl (claimSpans text) ([], [])

def findAll (u : Unicode) (text : Text) : List Finding :=
  if text.isEmpty then []
  else (claimed text (recognizers u)).1.insertionSort (fun f g => f.start ≤ g.start)

theorem mem_claimed_of_mem {text : Text} {r : Recognizer} {acc : List Finding × List (Nat × Nat)}
    {f : Finding} (ms : List (Nat × Nat)) (hf : f ∈ acc.1) :
    f ∈ (ms.foldl (claimSpan text r) acc).1 := by
  induction ms generalizing acc with
  | nil => exact hf
  | cons m ms ih =>
    refine ih ?_
    unfold claimSpan
    split
    · exact hf
    · split
      · exact hf
      · exact List.mem_append_left _ hf

theorem mem_claimed_foldl {text : Text} {acc : List Finding × List (Nat × Nat)} {f : Finding}
    (rs : List Recognizer) (hf : f ∈ acc.1) : f ∈ (rs.foldl (claimSpans text) acc).1 := by
  induction rs generalizing acc with
  | nil => exact hf
  | cons r rs ih => exact ih (mem_claimed_of_mem _ hf)

/-- Within one recognizer the candidates are disjoint, so an accepted one is lost
only to a span that was claimed before its turn. -/
theorem claimSpan_foldl_mem {text : Text} {r : Recognizer}
    {acc : List Finding × List (Nat × Nat)} {ms : List (Nat × Nat)} {m : Nat × Nat}
    (hd : ms.Pairwise (fun a b => a.2 ≤ b.1)) (hm : m ∈ ms)
    (hv : r.accepts (slice text m.1 m.2) = true)
    (hfree : ∀ c ∈ acc.2, overlaps m c = false) :
    r.finding text m ∈ (ms.foldl (claimSpan text r) acc).1 := by
  induction ms generalizing acc with
  | nil => cases hm
  | cons a ms ih =>
    have hp := List.pairwise_cons.mp hd
    rcases List.mem_cons.mp hm with rfl | hm'
    · refine mem_claimed_of_mem ms ?_
      have hany : acc.2.any (overlaps m) = false := by
        simpa [List.any_eq_false] using hfree
      simp [claimSpan, hany, hv]
    · refine ih hp.2 hm' ?_
      have ham := hp.1 m hm'
      have hself : overlaps m a = false := overlaps_eq_false_iff.mpr (.inl ham)
      unfold claimSpan
      split
      · exact hfree
      · split
        · exact hfree
        · intro c hc
          rcases List.mem_append.mp hc with hc | hc
          · exact hfree c hc
          · exact List.mem_singleton.mp hc ▸ hself

/-- What holds of the findings and claimed spans at every point of the search. -/
structure Claimed (text : Text) (acc : List Finding × List (Nat × Nat)) : Prop where
  spans : acc.2 = acc.1.map Finding.span
  disjoint : acc.2.Pairwise (fun a b => overlaps b a = false)
  inside : ∀ m ∈ acc.2, m.1 < m.2 ∧ m.2 ≤ text.length

theorem Claimed.claimSpan {text : Text} {acc : List Finding × List (Nat × Nat)}
    (h : Claimed text acc) (r : Recognizer) {m : Nat × Nat} (hm : m.1 < m.2)
    (hl : m.2 ≤ text.length) : Claimed text (claimSpan text r acc m) := by
  unfold KnowledgeBase.claimSpan
  split
  · exact h
  · rename_i hfree
    split
    · exact h
    · simp only [Bool.not_eq_true, List.any_eq_false] at hfree
      refine ⟨?_, ?_, ?_⟩
      · simp [h.spans, Recognizer.finding, Finding.span]
      · rw [List.pairwise_append]
        refine ⟨h.disjoint, List.pairwise_singleton _ _, ?_⟩
        intro a ha b hb
        obtain rfl := List.mem_singleton.mp hb
        exact hfree a ha
      · intro c hc
        rcases List.mem_append.mp hc with hc | hc
        · exact h.inside c hc
        · exact List.mem_singleton.mp hc ▸ ⟨hm, hl⟩

theorem Claimed.claimSpans {text : Text} {acc : List Finding × List (Nat × Nat)}
    (h : Claimed text acc) {r : Recognizer} (hr : 0 < r.pattern.minLen) :
    Claimed text (claimSpans text acc r) := by
  have hms : ∀ m ∈ r.pattern.finditer text, m.1 < m.2 ∧ m.2 ≤ text.length := by
    intro m hm
    have hmatch := Regex.scan_matches hm
    have h1 := hmatch.minLen_le
    have h2 := hmatch.le_length
    omega
  unfold KnowledgeBase.claimSpans
  generalize r.pattern.finditer text = ms at hms
  induction ms generalizing acc with
  | nil => exact h
  | cons m ms ih =>
    have hm := hms m (by simp)
    exact ih (h.claimSpan r hm.1 hm.2) (fun c hc => hms c (by simp [hc]))

theorem claimed_spec (text : Text) {rs : List Recognizer}
    (hrs : ∀ r ∈ rs, 0 < r.pattern.minLen) : Claimed text (claimed text rs) := by
  have h0 : Claimed text ([], []) := ⟨rfl, List.Pairwise.nil, by simp⟩
  unfold claimed
  generalize ([], []) = acc at h0
  induction rs generalizing acc with
  | nil => exact h0
  | cons r rs ih =>
    exact ih (fun q hq => hrs q (by simp [hq])) _ (h0.claimSpans (hrs r (by simp)))

theorem recognizers_consume (u : Unicode) : ∀ r ∈ recognizers u, 0 < r.pattern.minLen := by
  intro r hr
  simp only [recognizers, List.mem_cons, List.not_mem_nil, or_false] at hr
  rcases hr with rfl | rfl | rfl | rfl | rfl | rfl | rfl | rfl <;>
    exact Nat.succ_pos _

/-- A recognizer adds nothing but accepted candidates that were free when its turn came. -/
theorem claimSpan_foldl_cases {text : Text} {r : Recognizer}
    {acc : List Finding × List (Nat × Nat)} {ms : List (Nat × Nat)} {f : Finding}
    (hf : f ∈ (ms.foldl (claimSpan text r) acc).1) :
    f ∈ acc.1 ∨ ∃ m ∈ ms, r.accepts (slice text m.1 m.2) = true ∧
      (∀ c ∈ acc.2, overlaps m c = false) ∧ f = r.finding text m := by
  induction ms generalizing acc with
  | nil => exact .inl hf
  | cons m ms ih =>
    have hgrow : ∀ c ∈ acc.2, c ∈ (claimSpan text r acc m).2 := by
      intro c hc
      unfold claimSpan
      split
      · exact hc
      · split
        · exact hc
        · exact List.mem_append_left _ hc
    rcases ih hf with hm | ⟨m', hm', hv, hfree, rfl⟩
    · unfold claimSpan at hm
      split at hm
      · exact .inl hm
      · rename_i hany
        split at hm
        · exact .inl hm
        · rename_i hv
          rcases List.mem_append.mp hm with hm | hm
          · exact .inl hm
          · refine .inr ⟨m, by simp, by simpa using hv, ?_, List.mem_singleton.mp hm⟩
            simpa [List.any_eq_false] using hany
    · exact .inr ⟨m', by simp [hm'], hv, fun c hc => hfree c (hgrow c hc), rfl⟩

/-- The findings are the accepted candidates that no finding of a recognizer listed
earlier overlaps. -/
theorem mem_claimed_iff {text : Text} {rs : List Recognizer}
    (hrs : ∀ r ∈ rs, 0 < r.pattern.minLen) {f : Finding} :
    f ∈ (claimed text rs).1 ↔ ∃ pre r post, rs = pre ++ r :: post ∧
      ∃ m ∈ r.pattern.finditer text, r.accepts (slice text m.1 m.2) = true ∧
        (∀ g ∈ (claimed text pre).1, overlaps m g.span = false) ∧ f = r.finding text m := by
  constructor
  · intro hf
    induction rs using List.reverseRecOn with
    | nil => cases hf
    | append_singleton rs r ih =>
      have hpre := claimed_spec text (fun q hq => hrs q (List.mem_append_left _ hq))
      rw [claimed, List.foldl_append] at hf
      rcases claimSpan_foldl_cases hf with hf | ⟨m, hm, hv, hfree, rfl⟩
      · obtain ⟨pre, q, post, rfl, hq⟩ := ih (fun q hq => hrs q (List.mem_append_left _ hq)) hf
        exact ⟨pre, q, post ++ [r], by simp, hq⟩
      · refine ⟨rs, r, [], rfl, m, hm, hv, ?_, rfl⟩
        intro g hg
        exact hfree g.span (hpre.spans ▸ List.mem_map_of_mem hg)
  · rintro ⟨pre, r, post, rfl, m, hm, hv, hfree, rfl⟩
    have hpre := claimed_spec text (fun q hq => hrs q (List.mem_append_left _ hq))
    rw [claimed, List.foldl_append, List.foldl_cons]
    refine mem_claimed_foldl post (claimSpan_foldl_mem (Regex.scan_pairwise _ _ _ _) hm hv ?_)
    intro c hc
    have hc' : c ∈ (claimed text pre).1.map Finding.span := hpre.spans ▸ hc
    obtain ⟨g, hg, rfl⟩ := List.mem_map.mp hc'
    exact hfree g hg

theorem mem_findAll {u : Unicode} {text : Text} {f : Finding} :
    f ∈ findAll u text ↔ f ∈ (claimed text (recognizers u)).1 := by
  unfold findAll
  split
  · rename_i ht
    rw [List.isEmpty_iff.mp ht]
    have hnone : ∀ f, f ∉ (claimed [] (recognizers u)).1 := by
      intro f hf
      have hspec := claimed_spec [] (recognizers_consume u)
      have hin := hspec.inside f.span (hspec.spans ▸ List.mem_map_of_mem hf)
      have hlen : f.span.2 ≤ 0 := hin.2
      omega
    simp [hnone]
  · exact List.mem_insertionSort _

/-- The findings lie in the text, from left to right, and none overlaps another. -/
theorem findAll_pairwise (u : Unicode) (text : Text) :
    (findAll u text).Pairwise (fun f g => f.stop ≤ g.start) ∧
      ∀ f ∈ findAll u text, f.start < f.stop ∧ f.stop ≤ text.length := by
  have hspec := claimed_spec text (recognizers_consume u)
  have hin : ∀ f ∈ findAll u text, f.start < f.stop ∧ f.stop ≤ text.length := by
    intro f hf
    exact hspec.inside f.span (hspec.spans ▸ List.mem_map_of_mem (mem_findAll.mp hf))
  refine ⟨?_, hin⟩
  unfold findAll at hin ⊢
  split
  · exact List.Pairwise.nil
  · rename_i ht
    simp only [ht] at hin
    have hd : (claimed text (recognizers u)).1.Pairwise
        (fun f g => f.stop ≤ g.start ∨ g.stop ≤ f.start) := by
      have hd := hspec.disjoint
      rw [hspec.spans, List.pairwise_map] at hd
      refine hd.imp ?_
      intro f g h
      exact overlaps_eq_false_iff.mp h
    have hperm := List.perm_insertionSort (fun f g : Finding => f.start ≤ g.start)
      (claimed text (recognizers u)).1
    have hd' := hperm.symm.pairwise hd (fun h => h.symm)
    have hs := List.pairwise_insertionSort (fun f g : Finding => f.start ≤ g.start)
      (claimed text (recognizers u)).1
    refine (hs.and hd').imp_of_mem ?_
    intro f g hf hg h
    have h1 := hin f (by simpa using hf)
    have h2 := hin g (by simpa using hg)
    omega

end KnowledgeBase
