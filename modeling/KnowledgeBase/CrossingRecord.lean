import KnowledgeBase.Placeholders
import KnowledgeBase.Withholding

/-! The record of a crossing against what crossed. The counts are those of the request; the tier is
that of the passages that are left, which is the highest of all only where none is withheld that
stands higher. -/

namespace KnowledgeBase

namespace DataBoundaryGateway

/-- How high a tier stands; a missing or unknown one stands highest. -/
def tierRank (tier : Option String) : Nat := (tier.bind (Table.get tierOrder)).getD 1

def ranks (tiers : List (Option String)) : Set Nat := {n | ∃ tier ∈ tiers, tierRank tier = n}

/-- The values that are replaced in what is sent. -/
def replaced (u : Unicode) (cfg : GenerationSettings) (passages : List Text)
    (tiers : List (Option String)) (label : String) : Set Text :=
  {value | cfg.gatewayRedact = true ∧
    (label, value) ∈ foundValues u ((kept cfg passages tiers).map fun p => p.2.1)}

def maskedCount (record : BoundaryRecord) (label : String) : Nat :=
  ((Table.lookup MaskedValue.label record.masked label).map MaskedValue.count).getD 0

/-- What the record says of a request. -/
structure TellsTruth (u : Unicode) (cfg : GenerationSettings) (passages : List Text)
    (tiers : List (Option String)) (record : BoundaryRecord) : Prop where
  considered : record.passagesConsidered = passages.length
  accounted : record.passagesSent + record.passagesWithheldRestricted = record.passagesConsidered
  tier : ∃ n, Table.get tierOrder record.tier = some n ∧ IsGreatest (ranks tiers) n
  labels : (record.masked.map MaskedValue.label).Nodup
  masked : ∀ label, maskedCount record label = (replaced u cfg passages tiers label).ncard

section Tiers

variable {tiers : List (Option String)} {tier : Option String} {n : Nat}

theorem get_tierOrder {tier : String} (h : Table.get tierOrder tier = some n) :
    tier = Classification.public.value ∧ n = 0 ∨ tier = Classification.restricted.value ∧ n = 1 := by
  by_cases hp : Classification.public.value = tier
  · simp only [Table.get, tierOrder, Table.lookup_cons, hp, if_true, Option.map_some,
      Option.some.injEq] at h
    exact .inl ⟨hp.symm, h.symm⟩
  · by_cases hr : Classification.restricted.value = tier
    · simp only [Table.get, tierOrder, Table.lookup_cons, hp, hr, if_true, if_false, Option.map_some,
        Option.some.injEq] at h
      exact .inr ⟨hr.symm, h.symm⟩
    · simp [Table.get, tierOrder, Table.lookup_cons, hp, hr] at h

theorem tierRank_le_one (tier : Option String) : tierRank tier ≤ 1 := by
  rw [tierRank]
  cases h : tier.bind (Table.get tierOrder) with
  | none => simp
  | some n =>
    obtain ⟨t, -, hget⟩ := Option.bind_eq_some_iff.mp h
    rcases get_tierOrder hget with ⟨-, rfl⟩ | ⟨-, rfl⟩ <;> simp

theorem tierRank_eq_zero_iff : tierRank tier = 0 ↔ tier = some Classification.public.value := by
  constructor
  · intro h
    rw [tierRank] at h
    cases hget : tier.bind (Table.get tierOrder) with
    | none => simp [hget] at h
    | some n =>
      obtain ⟨t, rfl, hn⟩ := Option.bind_eq_some_iff.mp hget
      rcases get_tierOrder hn with ⟨rfl, -⟩ | ⟨-, rfl⟩
      · rfl
      · simp [hget] at h
  · rintro rfl
    rfl

theorem ranks_cons (tier : Option String) (tiers : List (Option String)) :
    ranks (tier :: tiers) = insert (tierRank tier) (ranks tiers) := by
  ext n
  simp [ranks, eq_comm]

/-- The classification is the highest of the tiers and of the one it begins with. -/
theorem classifyFrom_spec (tiers : List (Option String)) {highest : String}
    (h : Table.get tierOrder highest = some n) :
    ∃ m, Table.get tierOrder (classifyFrom highest tiers) = some m ∧
      IsGreatest (insert n (ranks tiers)) m := by
  induction tiers generalizing highest n with
  | nil => exact ⟨n, h, by simp [ranks]⟩
  | cons tier tiers ih =>
    have htop : ∀ tier, tierRank tier = 1 → IsGreatest (insert n (ranks (tier :: tiers))) 1 := by
      intro tier htier
      refine ⟨.inr ⟨tier, List.mem_cons_self, htier⟩, ?_⟩
      rintro m (rfl | ⟨t, -, rfl⟩)
      · rcases get_tierOrder h with ⟨-, rfl⟩ | ⟨-, rfl⟩ <;> simp
      · exact tierRank_le_one t
    cases tier with
    | none => exact ⟨1, rfl, htop none rfl⟩
    | some tier =>
      rw [classifyFrom]
      cases hget : Table.get tierOrder tier with
      | none => exact ⟨1, rfl, htop (some tier) (by simp [tierRank, hget])⟩
      | some rank =>
        have hrank : tierRank (some tier) = rank := by simp [tierRank, hget]
        rw [ranks_cons, hrank, h, Option.getD_some]
        dsimp only
        split
        · rename_i hlt
          obtain ⟨m, hm, hgreat⟩ := ih hget
          refine ⟨m, hm, .inr hgreat.1, ?_⟩
          rintro k (rfl | hk)
          · exact Nat.le_of_lt (Nat.lt_of_lt_of_le hlt (hgreat.2 (.inl rfl)))
          · exact hgreat.2 hk
        · rename_i hle
          obtain ⟨m, hm, hgreat⟩ := ih h
          refine ⟨m, hm, ?_, ?_⟩
          · rcases hgreat.1 with rfl | hk
            · exact .inl rfl
            · exact .inr (.inr hk)
          · rintro k (rfl | rfl | hk)
            · exact hgreat.2 (.inl rfl)
            · exact Nat.le_trans (Nat.le_of_not_lt hle) (hgreat.2 (.inl rfl))
            · exact hgreat.2 (.inr hk)

theorem classify_spec (hne : tiers ≠ []) :
    ∃ m, Table.get tierOrder (classify tiers) = some m ∧ IsGreatest (ranks tiers) m := by
  have hpublic : Table.get tierOrder Classification.public.value = some 0 := rfl
  obtain ⟨m, hm, hmem, hle⟩ := classifyFrom_spec tiers hpublic
  refine ⟨m, hm, ?_, fun k hk => hle (.inr hk)⟩
  rcases hmem with rfl | hmem
  · obtain ⟨tier, htier⟩ := List.exists_mem_of_ne_nil tiers hne
    exact ⟨tier, htier, Nat.le_zero.mp (hle (.inr ⟨tier, htier, rfl⟩))⟩
  · exact hmem

end Tiers

section Record

variable {u : Unicode} {cfg : GenerationSettings} {provider : AnswerProvider} {system : Text}
  {passages : List Text} {tiers : List (Option String)} {buildUser : List (Nat × Text) → Text}
  {crossing : Crossing} {completion : Completion} {record : BoundaryRecord}

theorem kept_tiers (cfg : GenerationSettings) (hlen : passages.length = tiers.length) :
    (kept cfg passages tiers).map (fun p => p.2.2) = tiers.filter (mayLeave cfg) := by
  have hsnd : (passages.zip tiers).map Prod.snd = tiers :=
    List.map_snd_zip (Nat.le_of_eq hlen.symm)
  have hids := List.zipIdx_map_fst 0 (passages.zip tiers)
  rw [kept, List.map_map]
  conv_rhs => rw [← hsnd, ← hids, List.map_map, List.filter_map]
  rfl

theorem length_kept (hlen : passages.length = tiers.length) :
    (kept cfg passages tiers).length + tiers.countP (fun tier => !mayLeave cfg tier) =
      passages.length := by
  have hkept := congrArg List.length (kept_tiers cfg hlen)
  rw [List.length_map] at hkept
  rw [hkept, ← List.countP_eq_length_filter, hlen, List.length_eq_countP_add_countP (mayLeave cfg)]
  simp

theorem masked_labels (u : Unicode) (texts : List Text) :
    ((redact u texts).2.map MaskedValue.label).Nodup := by
  have hperm : (redact u texts).2.Perm
      ((numbering u texts).assigned.map (maskedValue u (numbering u texts))) :=
    List.perm_insertionSort _ _
  rw [(hperm.map MaskedValue.label).nodup_iff, List.map_map]
  exact (counted_numbering u texts).labels

/-- A masked entry counts the values that were foundValues under its label. -/
theorem count_masked (u : Unicode) (texts : List Text) (label : String) :
    ((Table.lookup MaskedValue.label (redact u texts).2 label).map MaskedValue.count).getD 0 =
      {value | (label, value) ∈ foundValues u texts}.ncard := by
  have hperm : (redact u texts).2.Perm
      ((numbering u texts).assigned.map (maskedValue u (numbering u texts))) :=
    List.perm_insertionSort _ _
  have hlabels := (hperm.map MaskedValue.label).nodup_iff.mp (masked_labels u texts)
  have hcount : ((Table.lookup MaskedValue.label (redact u texts).2 label).map
      MaskedValue.count).getD 0 = ((numbering u texts).seen label).length := by
    rw [Table.lookup_perm hlabels hperm, Table.lookup_map, Option.map_map, Numbering.seen, Table.get]
    have hkey : (fun entry => (maskedValue u (numbering u texts) entry).label) = Prod.fst := rfl
    rw [hkey]
    cases Table.lookup Prod.fst (numbering u texts).assigned label <;> rfl
  have hvalues : {value | (label, value) ∈ foundValues u texts} =
      ↑(((numbering u texts).seen label).map Prod.fst).toFinset := by
    ext value
    rw [Set.mem_ofPred_eq, mem_foundValues_iff, Numbering.placeholderOf, Table.get_isSome_iff,
      Finset.mem_coe, List.mem_toFinset]
  rw [hcount, hvalues, Set.ncard_coe_finset,
    List.toFinset_card_of_nodup ((counted_numbering u texts).values label), List.length_map]

theorem send_record (h : send u cfg provider system passages tiers buildUser = .ok crossing)
    (hc : crossing.outcome = .ok (completion, record)) :
    passages.length = tiers.length ∧ tiers.filter (mayLeave cfg) ≠ [] ∧
      record.tier = classify (tiers.filter (mayLeave cfg)) ∧
      record.passagesConsidered = passages.length ∧
      record.passagesSent = (kept cfg passages tiers).length ∧
      record.passagesWithheldRestricted = tiers.countP (fun tier => !mayLeave cfg tier) ∧
      record.masked = if cfg.gatewayRedact = true then
        (redact u ((kept cfg passages tiers).map fun p => p.2.1)).2 else [] := by
  unfold send at h
  split at h
  · cases h
  · rename_i hlen
    have hkept := kept_tiers cfg (not_not.mp hlen)
    dsimp only at h
    split at h
    · cases h
    · rename_i hleft
      obtain rfl := Except.ok.inj h
      cases hreply : provider.complete system (buildUser (((kept cfg passages tiers).map Prod.fst).zip
          (if cfg.gatewayRedact = true then redact u ((kept cfg passages tiers).map fun p => p.2.1)
            else ((kept cfg passages tiers).map fun p => p.2.1, [])).1)) with
      | error e =>
        rw [hreply] at hc
        cases hc
      | ok reply =>
        rw [hreply] at hc
        obtain ⟨rfl, rfl⟩ := Prod.mk.inj (Except.ok.inj hc)
        refine ⟨not_not.mp hlen, ?_, by rw [← hkept], rfl, ?_, rfl, ?_⟩
        · rw [← hkept]
          simpa using hleft
        · dsimp only
          split
          · rw [length_redact, List.length_map]
          · rw [List.length_map]
        · dsimp only
          split <;> rfl

/-- The record tells the truth when restricted passages may leave, or when none is among those that
were considered. -/
theorem record_true_iff (h : send u cfg provider system passages tiers buildUser = .ok crossing)
    (hc : crossing.outcome = .ok (completion, record)) :
    TellsTruth u cfg passages tiers record ↔ cfg.generationIncludeRestricted = true ∨
      ∀ tier ∈ tiers, tier = some Classification.public.value := by
  obtain ⟨hlen, hne, htier, hconsidered, hsent, hwithheld, hmasked⟩ := send_record h hc
  obtain ⟨m, hm, hgreat⟩ := classify_spec hne
  constructor
  · intro htrue
    by_cases hcfg : cfg.generationIncludeRestricted = true
    · exact .inl hcfg
    · refine .inr fun tier hmem => ?_
      obtain ⟨n, hn, htop⟩ := htrue.tier
      rw [htier, hm, Option.some.injEq] at hn
      obtain ⟨left, hleft, hrank⟩ := hgreat.1
      have hpublic := (mayLeave_iff (by simpa using hcfg)).mp (List.mem_filter.mp hleft).2
      have hzero : m = 0 := by rw [← hrank, tierRank_eq_zero_iff.mpr hpublic]
      have hle : tierRank tier ≤ n := htop.2 ⟨tier, hmem, rfl⟩
      exact tierRank_eq_zero_iff.mp (by omega)
  · intro hall
    have hfilter : tiers.filter (mayLeave cfg) = tiers := by
      rw [List.filter_eq_self]
      rintro tier hmem
      rcases hall with hcfg | hpublic
      · simp [mayLeave, hcfg]
      · simp [mayLeave, hpublic tier hmem]
    rw [hfilter] at htier hm hgreat
    refine ⟨hconsidered, ?_, ⟨m, by rw [htier, hm], hgreat⟩, ?_, fun label => ?_⟩
    · rw [hsent, hwithheld, hconsidered, length_kept hlen]
    · rw [hmasked]
      split
      · exact masked_labels u _
      · exact List.nodup_nil
    · rw [maskedCount, hmasked]
      split
      · rename_i hredact
        rw [count_masked]
        simp [replaced, hredact]
      · rename_i hredact
        simp [replaced, hredact]

open AnswerService

def lettingOut : GenerationSettings := { boundarySettings with generationIncludeRestricted := true }

theorem mixed_let_out : ∃ crossing completion record,
    send ascii lettingOut quietProvider [] ["Stack.".toList, "Internal.".toList]
        [some "PUBLIC", some "RESTRICTED"] (fun sent => (sent.map Prod.snd).flatten) = .ok crossing ∧
      crossing.outcome = .ok (completion, record) ∧
      (TellsTruth ascii lettingOut ["Stack.".toList, "Internal.".toList]
          [some "PUBLIC", some "RESTRICTED"] record ↔ lettingOut.generationIncludeRestricted = true ∨
        ∀ tier ∈ [some "PUBLIC", some "RESTRICTED"], tier = some Classification.public.value) := by
  obtain ⟨crossing, hsend⟩ : ∃ crossing, send ascii lettingOut quietProvider []
      ["Stack.".toList, "Internal.".toList] [some "PUBLIC", some "RESTRICTED"]
      (fun sent => (sent.map Prod.snd).flatten) = .ok crossing := ⟨_, rfl⟩
  obtain ⟨completion, record, hreply⟩ : ∃ completion record,
      crossing.outcome = .ok (completion, record) := by
    obtain rfl := Except.ok.inj hsend
    exact ⟨_, _, rfl⟩
  exact ⟨crossing, completion, record, hsend, hreply, record_true_iff hsend hreply⟩

/-- A restricted passage is withheld, and the request is recorded as public. -/
theorem withheld_recorded_public : ¬ ∀ crossing completion record,
    send ascii boundarySettings quietProvider [] ["Stack.".toList, "Internal.".toList]
        [some "PUBLIC", some "RESTRICTED"] (fun sent => (sent.map Prod.snd).flatten) = .ok crossing →
      crossing.outcome = .ok (completion, record) →
      TellsTruth ascii boundarySettings ["Stack.".toList, "Internal.".toList]
        [some "PUBLIC", some "RESTRICTED"] record := by
  intro h
  obtain ⟨crossing, hsend⟩ : ∃ crossing, send ascii boundarySettings quietProvider []
      ["Stack.".toList, "Internal.".toList] [some "PUBLIC", some "RESTRICTED"]
      (fun sent => (sent.map Prod.snd).flatten) = .ok crossing := ⟨_, rfl⟩
  obtain ⟨completion, record, hreply⟩ : ∃ completion record,
      crossing.outcome = .ok (completion, record) := by
    obtain rfl := Except.ok.inj hsend
    exact ⟨_, _, rfl⟩
  obtain ⟨n, hn, htop⟩ := (h crossing completion record hsend hreply).tier
  obtain ⟨-, -, htier, -⟩ := send_record hsend hreply
  have hpublic : classify ([some "PUBLIC", some "RESTRICTED"].filter (mayLeave boundarySettings)) =
      Classification.public.value := by decide
  rw [htier, hpublic] at hn
  obtain rfl : 0 = n := Option.some.inj hn
  exact absurd (htop.2 ⟨some "RESTRICTED", by simp, rfl⟩) (by decide)

end Record

end DataBoundaryGateway

end KnowledgeBase
