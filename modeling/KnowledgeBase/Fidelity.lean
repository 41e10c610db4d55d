import KnowledgeBase.AnswerService
import KnowledgeBase.Extraction

/-! Checking an answer against the passages it was built from: its figures, its citations and its
quotations. What the check compares is the normal form of a text, read here piece by piece. -/

namespace KnowledgeBase

namespace Fidelity

open Regex Recognizers

variable (u : Unicode) (lower : Text → Text)

/-- `\d{1,3}(?:,\d{2,3})+(?:\.\d+)?`. -/
def groupedNumber : Regex Char :=
  concat [rep (digit u) 1 3, plus (seq (lit ',') (rep (digit u) 2 3)),
    opt (seq (lit '.') (plus (digit u)))]

def pointNumber : Regex Char := concat [plus (digit u), lit '.', plus (digit u)]

def longNumber : Regex Char := seq (times (digit u) 4) (star (digit u))

def ordinals : List String := ["st", "nd", "rd", "th"]

def shortNumber : Regex Char :=
  seq (rep (digit u) 1 3) (opt (alt (seq (lit 's') (lit 't')) (alt (seq (lit 'n') (lit 'd'))
    (alt (seq (lit 'r') (lit 'd')) (seq (lit 't') (lit 'h'))))))

/-- `_NUMBER`. -/
def numberPattern : Regex Char :=
  seq (look fun before _ => !before.any fun c => u.isWord c || c = '.')
    (seq (alt (groupedNumber u) (alt (pointNumber u) (alt (longNumber u) (shortNumber u))))
      (look fun _ after => !after.any u.isWord))

/-- `_QUOTED`. -/
def quotedPattern : Regex Char :=
  concat [cls (fun c => c = '\u201c' || c = '\x22'),
    star (cls fun c => c ≠ '\u201d' && c ≠ '\x22'), cls (fun c => c = '\u201d' || c = '\x22')]

def minQuoteChars : Nat := 25

/-- `_SENTENCE`. -/
def sentenceBreak : Regex Char :=
  seq (look fun before _ => before.any fun c => ['.', '!', '?'].contains c) (plus (cls u.isSpace))

def trivials : List Text :=
  ["0", "1", "2", "3", "4", "5", "6", "7", "8", "9", "10"].map String.toList

/-- `(st|nd|rd|th)\b`. -/
def ordinalAhead (text : Text) : Bool :=
  ordinals.any (fun s => s.toList.isPrefixOf text) &&
    (text[1]?.any u.isWord != text[2]?.any u.isWord)

/-- `re.sub(r"(\d)(st|nd|rd|th)\b", r"\1", text)`, with the letters still to be skipped. -/
def dropOrdinals : Nat → Text → Text
  | _, [] => []
  | skip + 1, _ :: text => dropOrdinals skip text
  | 0, c :: text =>
    if u.isDigit c && ordinalAhead u text then c :: dropOrdinals 2 text
    else c :: dropOrdinals 0 text

/-- `re.sub(r"\s+", " ", text)`; the flag is set after white space. -/
def oneSpace : Bool → Text → Text
  | _, [] => []
  | after, c :: text =>
    if u.isSpace c then (if after then oneSpace true text else ' ' :: oneSpace true text)
    else c :: oneSpace false text

def normalise (text : Text) : Text :=
  oneSpace u false (dropOrdinals u 0 ((lower text).filter (· ≠ ',')))

structure FidelityReport where
  numbersChecked : Nat
  numbersSupported : Nat
  unsupportedNumbers : List Text
  sentences : Nat
  sentencesCited : Nat
  quotesChecked : Nat
  quotesVerbatim : Nat
  badQuotes : List Text
  deriving DecidableEq

def emptyReport : FidelityReport := ⟨0, 0, [], 0, 0, 0, 0, []⟩

/-- `_MARKER.sub(" ", text)`. -/
def stripMarkers (text : Text) : Text :=
  Splice.splice text 0 (((AnswerService.marker u).finditer text).map fun m => ⟨m.1, m.2, [' ']⟩)

/-- One number: it counts once, by its normal form. -/
def checkNumber (haystack : Text) (acc : List Text × FidelityReport) (raw : Text) :
    List Text × FidelityReport :=
  let key := normalise u lower raw
  let (seen, report) := acc
  if trivials.contains key || seen.contains key then acc
  else
    let report := { report with numbersChecked := report.numbersChecked + 1 }
    if key <:+: haystack then
      (key :: seen, { report with numbersSupported := report.numbersSupported + 1 })
    else (key :: seen, { report with unsupportedNumbers := report.unsupportedNumbers ++ [raw] })

def checkSentence (report : FidelityReport) (sentence : Text) : FidelityReport :=
  let s := strip u sentence
  if s.length < 25 then report
  else
    let report := { report with sentences := report.sentences + 1 }
    if ((AnswerService.marker u).finditer s).isEmpty then report
    else { report with sentencesCited := report.sentencesCited + 1 }

def checkQuote (haystack : Text) (report : FidelityReport) (quoted : Text) : FidelityReport :=
  if quoted.length < minQuoteChars then report
  else
    let report := { report with quotesChecked := report.quotesChecked + 1 }
    if normalise u lower quoted <:+: haystack then
      { report with quotesVerbatim := report.quotesVerbatim + 1 }
    else { report with badQuotes := report.badQuotes ++ [quoted.take 90] }

/-- What the pattern picks out of a text. -/
def numbers (text : Text) : List Text :=
  ((numberPattern u).finditer text).map fun m => slice text m.1 m.2

/-- What stands between quotation marks, without markers. -/
def quotations (text : Text) : List Text :=
  (quotedPattern.finditer text).map fun m =>
    strip u (stripMarkers u (slice text (m.1 + 1) (m.2 - 1)))

def haystack (contexts : List Text) : Text := normalise u lower (Artifact.join " \n " contexts)

def check (answer : Text) (contexts : List Text) : FidelityReport :=
  if answer.isEmpty then emptyReport
  else
    let haystack := haystack u lower contexts
    let report :=
      ((numbers u (stripMarkers u answer)).foldl (checkNumber u lower haystack) ([], emptyReport)).2
    let report := ((sentenceBreak u).split answer).foldl (checkSentence u) report
    (quotations u answer).foldl (checkQuote u lower haystack) report

section Report

variable (hay : Text)

/-- Nothing is unsupported when every number is trivial or found. -/
theorem foldl_checkNumber (acc : List Text × FidelityReport) (raws : List Text)
    (h : acc.2.unsupportedNumbers = [] → ∀ key ∈ acc.1, key <:+: hay) :
    (raws.foldl (checkNumber u lower hay) acc).2.unsupportedNumbers = [] ↔
      acc.2.unsupportedNumbers = [] ∧
        ∀ raw ∈ raws, normalise u lower raw ∈ trivials ∨ normalise u lower raw <:+: hay := by
  induction raws generalizing acc with
  | nil => simp
  | cons raw raws ih =>
    obtain ⟨seen, report⟩ := acc
    rw [List.foldl_cons, List.forall_mem_cons]
    by_cases hskip : (trivials.contains (normalise u lower raw) ||
        seen.contains (normalise u lower raw)) = true
    · have hstep : checkNumber u lower hay (seen, report) raw = (seen, report) := by
        rw [checkNumber, if_pos hskip]
      rw [hstep, ih _ h]
      refine and_congr_right fun hnone => (and_iff_right ?_).symm
      simp only [Bool.or_eq_true, List.contains_iff_mem] at hskip
      exact hskip.imp id fun hseen => h hnone _ hseen
    · have hnew : normalise u lower raw ∉ trivials := by
        simp only [Bool.or_eq_true, List.contains_iff_mem, not_or] at hskip
        exact hskip.1
      by_cases hin : normalise u lower raw <:+: hay
      · have hstep : checkNumber u lower hay (seen, report) raw = (normalise u lower raw :: seen,
            { report with numbersChecked := report.numbersChecked + 1
                          numbersSupported := report.numbersSupported + 1 }) := by
          rw [checkNumber, if_neg hskip, if_pos hin]
        have hseen : report.unsupportedNumbers = [] →
            ∀ key ∈ normalise u lower raw :: seen, key <:+: hay := by
          intro hnone
          exact List.forall_mem_cons.mpr ⟨hin, h hnone⟩
        rw [hstep, ih _ hseen]
        simp only [hin, or_true, true_and]
      · have hstep : checkNumber u lower hay (seen, report) raw = (normalise u lower raw :: seen,
            { report with numbersChecked := report.numbersChecked + 1
                          unsupportedNumbers := report.unsupportedNumbers ++ [raw] }) := by
          rw [checkNumber, if_neg hskip, if_neg hin]
        rw [hstep, ih _ (by simp)]
        simp [hin, hnew]

theorem quotesVerbatim_checkNumber (acc : List Text × FidelityReport) (raws : List Text) :
    (raws.foldl (checkNumber u lower hay) acc).2.quotesVerbatim = acc.2.quotesVerbatim := by
  induction raws generalizing acc with
  | nil => rfl
  | cons raw raws ih =>
    have hstep : (checkNumber u lower hay acc raw).2.quotesVerbatim = acc.2.quotesVerbatim := by
      simp only [checkNumber]
      split
      · rfl
      · split <;> rfl
    rw [List.foldl_cons, ih, hstep]

theorem foldl_checkSentence (report : FidelityReport) (sentences : List Text) :
    (sentences.foldl (checkSentence u) report).unsupportedNumbers = report.unsupportedNumbers ∧
      (sentences.foldl (checkSentence u) report).quotesVerbatim = report.quotesVerbatim := by
  induction sentences generalizing report with
  | nil => exact ⟨rfl, rfl⟩
  | cons s sentences ih =>
    have hstep : (checkSentence u report s).unsupportedNumbers = report.unsupportedNumbers ∧
        (checkSentence u report s).quotesVerbatim = report.quotesVerbatim := by
      simp only [checkSentence]
      split
      · exact ⟨rfl, rfl⟩
      · split <;> exact ⟨rfl, rfl⟩
    obtain ⟨hu, hq⟩ := ih (checkSentence u report s)
    exact ⟨hu.trans hstep.1, hq.trans hstep.2⟩

/-- The quotations that count as verbatim. -/
def verbatim (quoted : List Text) : List Text :=
  quoted.filter fun q => minQuoteChars ≤ q.length ∧ normalise u lower q <:+: hay

theorem foldl_checkQuote (report : FidelityReport) (quoted : List Text) :
    (quoted.foldl (checkQuote u lower hay) report).unsupportedNumbers = report.unsupportedNumbers ∧
      (quoted.foldl (checkQuote u lower hay) report).quotesVerbatim =
        report.quotesVerbatim + (verbatim u lower hay quoted).length := by
  induction quoted generalizing report with
  | nil => exact ⟨rfl, rfl⟩
  | cons q quoted ih =>
    have hstep : (checkQuote u lower hay report q).unsupportedNumbers = report.unsupportedNumbers ∧
        (checkQuote u lower hay report q).quotesVerbatim =
          report.quotesVerbatim + (verbatim u lower hay [q]).length := by
      simp only [checkQuote, verbatim]
      by_cases hshort : q.length < minQuoteChars
      · simp [hshort]
      · by_cases hin : normalise u lower q <:+: hay <;> simp [hshort, hin, Nat.le_of_not_lt hshort]
    have hsplit : (verbatim u lower hay (q :: quoted)).length =
        (verbatim u lower hay [q]).length + (verbatim u lower hay quoted).length := by
      rw [← List.length_append, verbatim, verbatim, verbatim, ← List.filter_append]
      rfl
    obtain ⟨hu, hq⟩ := ih (checkQuote u lower hay report q)
    exact ⟨hu.trans hstep.1, by rw [List.foldl_cons, hq, hstep.2, hsplit, Nat.add_assoc]⟩

/-- The report by what is picked out of the answer. -/
theorem check_spec (u : Unicode) (lower : Text → Text) (answer : Text) (contexts : List Text) :
    ((check u lower answer contexts).unsupportedNumbers = [] ↔
      ∀ raw ∈ numbers u (stripMarkers u answer), normalise u lower raw ∈ trivials ∨
        normalise u lower raw <:+: haystack u lower contexts) ∧
    (check u lower answer contexts).quotesVerbatim =
      (verbatim u lower (haystack u lower contexts) (quotations u answer)).length := by
  rw [check]
  by_cases hempty : answer.isEmpty = true
  · obtain rfl := List.isEmpty_iff.mp hempty
    rw [if_pos hempty]
    exact ⟨⟨fun _ => nofun, fun _ => rfl⟩, rfl⟩
  · rw [if_neg hempty]
    dsimp only
    obtain ⟨report, hreport⟩ : ∃ report, report = ((numbers u (stripMarkers u answer)).foldl
      (checkNumber u lower (haystack u lower contexts)) ([], emptyReport)).2 := ⟨_, rfl⟩
    have hnumbers := foldl_checkNumber u lower (haystack u lower contexts) ([], emptyReport)
      (numbers u (stripMarkers u answer)) fun _ => nofun
    have hnone := quotesVerbatim_checkNumber u lower (haystack u lower contexts) ([], emptyReport)
      (numbers u (stripMarkers u answer))
    rw [← hreport] at hnumbers hnone ⊢
    obtain ⟨hsu, hsv⟩ := foldl_checkSentence u report ((sentenceBreak u).split answer)
    obtain ⟨hqu, hqv⟩ := foldl_checkQuote u lower (haystack u lower contexts)
      (((sentenceBreak u).split answer).foldl (checkSentence u) report) (quotations u answer)
    constructor
    · rw [hqu, hsu, hnumbers]
      exact and_iff_right rfl
    · rw [hqv, hsv, hnone]
      exact Nat.zero_add _

end Report

end Fidelity

end KnowledgeBase
