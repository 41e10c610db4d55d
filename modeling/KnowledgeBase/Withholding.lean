import KnowledgeBase.AnswerService

/-! What is asked of the model, and what is answered, depends on the passages that may leave. -/

namespace KnowledgeBase

namespace DataBoundaryGateway

variable {u : Unicode} {cfg : GenerationSettings} {provider : AnswerProvider} {system : Text}
  {passages passages' : List Text} {tiers : List (Option String)}
  {buildUser buildUser' : List (Nat × Text) → Text}

theorem mayLeave_iff (h : cfg.generationIncludeRestricted = false) {tier : Option String} :
    mayLeave cfg tier = true ↔ tier = some Classification.public.value := by
  simp [mayLeave, h]

theorem length_redact (u : Unicode) (texts : List Text) :
    (redact u texts).1.length = texts.length := (redact_spec u texts).length_eq.symm

/-- The request and its record are made of the passages that may leave. -/
theorem send_congr (hlen : passages.length = passages'.length)
    (hkept : kept cfg passages tiers = kept cfg passages' tiers)
    (hbuild : ∀ bodies : List Text, bodies.length = (kept cfg passages tiers).length →
      buildUser (((kept cfg passages tiers).map Prod.fst).zip bodies) =
        buildUser' (((kept cfg passages tiers).map Prod.fst).zip bodies)) :
    send u cfg provider system passages tiers buildUser =
      send u cfg provider system passages' tiers buildUser' := by
  unfold send
  rw [← hkept, ← hlen]
  cases hredact : cfg.gatewayRedact with
  | true =>
    have hbodies := hbuild (redact u ((kept cfg passages tiers).map fun p => p.2.1)).1
      (by rw [length_redact, List.length_map])
    simp only [if_true, hbodies]
  | false =>
    have hbodies := hbuild ((kept cfg passages tiers).map fun p => p.2.1) (List.length_map _)
    simp only [Bool.false_eq_true, if_false, hbodies]

end DataBoundaryGateway

namespace AnswerService

variable {u : Unicode} {cfg : GenerationSettings} {provider : AnswerProvider} {question : Text}
  {chunks chunks' usable usable' : List RetrievedChunk} {ts : List (Option String)}
  {tiers : Option (List (Option String))}

/-- A place whose tier is exactly PUBLIC, among those that are looked at. -/
def PublicAt (cfg : GenerationSettings) (tiers : Option (List (Option String))) (i : Nat) : Prop :=
  i < cfg.generationMaxPassages ∧
    ∃ given, tiers = some given ∧ given[i]? = some (some Classification.public.value)

theorem leaving_congr (hcfg : cfg.generationIncludeRestricted = false)
    (hlen : usable.length = usable'.length)
    (hagree : ∀ i : Nat, ts[i]? = some (some Classification.public.value) → usable[i]? = usable'[i]?) :
    leaving cfg usable ts = leaving cfg usable' ts := by
  unfold leaving
  generalize 0 = n
  induction usable generalizing usable' ts n with
  | nil =>
    rw [List.length_nil] at hlen
    rw [List.eq_nil_of_length_eq_zero hlen.symm]
  | cons c cs ih =>
    cases usable' with
    | nil => cases hlen
    | cons c' cs' =>
      cases ts with
      | nil => simp
      | cons t ts =>
        have hrest := ih (Nat.succ.inj hlen) (fun i hi => hagree (i + 1) hi) (n + 1)
        simp only [List.zip_cons_cons, List.zipIdx_cons, List.filter_cons, hrest]
        by_cases ht : t = some Classification.public.value
        · have hc : c = c' := by simpa using hagree 0 (by simp [ht])
          rw [hc]
        · have hno : DataBoundaryGateway.mayLeave cfg t = false := by
            rw [Bool.eq_false_iff, ne_eq, DataBoundaryGateway.mayLeave_iff hcfg]
            exact ht
          simp [hno]

theorem suppliedTiers_congr (hlen : chunks.length = chunks'.length) (n : Nat) :
    suppliedTiers chunks tiers n = suppliedTiers chunks' tiers n := by
  unfold suppliedTiers
  rw [hlen]

/-- Only a tier that was given can be PUBLIC. -/
theorem publicAt_of_supplied {i : Nat} (h : (suppliedTiers chunks tiers
    (chunks.take cfg.generationMaxPassages).length)[i]? = some (some Classification.public.value)) :
    PublicAt cfg tiers i := by
  unfold suppliedTiers at h
  rw [List.getElem?_take] at h
  split at h
  · rename_i hi
    have hmax : i < cfg.generationMaxPassages :=
      Nat.lt_of_lt_of_le hi (List.length_take_le _ _)
    refine ⟨hmax, ?_⟩
    cases tiers with
    | none => simp [List.getElem?_replicate] at h
    | some given =>
      cases given with
      | nil => simp [List.getElem?_replicate] at h
      | cons t given => exact ⟨_, rfl, h⟩
  · cases h

/-- The chunk of each place that leaves is the one given there, under a PUBLIC tier. -/
theorem mem_leaving {p : (RetrievedChunk × Option String) × Nat}
    (hcfg : cfg.generationIncludeRestricted = false) (h : p ∈ leaving cfg usable ts) :
    usable[p.2]? = some p.1.1 ∧ ts[p.2]? = some (some Classification.public.value) := by
  obtain ⟨hmem, hleave⟩ := List.mem_filter.mp h
  have hget := List.mem_zipIdx_iff_getElem?.mp hmem
  rw [List.getElem?_zip_eq_some] at hget
  exact ⟨hget.1, (DataBoundaryGateway.mayLeave_iff hcfg).mp hleave ▸ hget.2⟩

theorem kept_places : ((DataBoundaryGateway.kept cfg (usable.map RetrievedChunk.text) ts).map
    fun p => (p.1, p.2.1)) = ((leaving cfg usable ts).map Prod.snd).zip
      ((leaving cfg usable ts).map fun p => p.1.1.text) := by
  rw [kept_eq, List.map_map, List.zip_map']
  rfl

/-- The chunks sent are those that may leave. -/
theorem sentChunks_kept : sentChunks usable ((DataBoundaryGateway.kept cfg
    (usable.map RetrievedChunk.text) ts).map fun p => (p.1, p.2.1)) =
      (leaving cfg usable ts).map fun p => p.1.1 := by
  rw [kept_places, sentChunks_eq (List.length_map _)]

theorem mem_citation {sent : List RetrievedChunk} {text : Text} {cit : Citation}
    (h : cit ∈ (verifyCitations u text sent).2.1) :
    ∃ c ∈ sent, cit.chunkId = c.chunkId ∧ cit.documentId = c.documentId := by
  obtain ⟨n, -, hn⟩ := List.mem_filterMap.mp h
  obtain ⟨c, hc, rfl⟩ := Option.map_eq_some_iff.mp hn
  exact ⟨c, List.mem_of_getElem? hc, rfl, rfl⟩

section TwoCalls

variable (hcfg : cfg.generationIncludeRestricted = false)

include hcfg

theorem answer_congr (hlen : chunks.length = chunks'.length)
    (hagree : ∀ i, PublicAt cfg tiers i → chunks[i]? = chunks'[i]?) :
    answer u cfg provider question chunks true tiers =
      answer u cfg provider question chunks' true tiers := by
  unfold answer
  have hempty : chunks.isEmpty = chunks'.isEmpty := by
    rw [Bool.eq_iff_iff, List.isEmpty_iff_length_eq_zero, List.isEmpty_iff_length_eq_zero, hlen]
  rw [hempty]
  split
  · rfl
  · dsimp only
    have husable : (chunks.take cfg.generationMaxPassages).length =
        (chunks'.take cfg.generationMaxPassages).length := by
      rw [List.length_take, List.length_take, hlen]
    rw [← husable, ← suppliedTiers_congr hlen]
    generalize hts : suppliedTiers chunks tiers (chunks.take cfg.generationMaxPassages).length = ts
    have hleaving : leaving cfg (chunks.take cfg.generationMaxPassages) ts =
        leaving cfg (chunks'.take cfg.generationMaxPassages) ts := by
      refine leaving_congr hcfg husable fun i hi => ?_
      have hpub : PublicAt cfg tiers i := publicAt_of_supplied (hts ▸ hi)
      rw [List.getElem?_take_of_lt hpub.1, List.getElem?_take_of_lt hpub.1, hagree i hpub]
    have hkept : DataBoundaryGateway.kept cfg
        ((chunks.take cfg.generationMaxPassages).map RetrievedChunk.text) ts =
        DataBoundaryGateway.kept cfg
          ((chunks'.take cfg.generationMaxPassages).map RetrievedChunk.text) ts := by
      rw [kept_eq, kept_eq, hleaving]
    have hsend : DataBoundaryGateway.send u cfg provider systemPrompt.toList
        ((chunks.take cfg.generationMaxPassages).map RetrievedChunk.text) ts
        (fun places => compose question
          (sentChunks (chunks.take cfg.generationMaxPassages) places) (places.map Prod.snd)) =
        DataBoundaryGateway.send u cfg provider systemPrompt.toList
          ((chunks'.take cfg.generationMaxPassages).map RetrievedChunk.text) ts
          (fun places => compose question
            (sentChunks (chunks'.take cfg.generationMaxPassages) places)
            (places.map Prod.snd)) := by
      refine DataBoundaryGateway.send_congr (by simp [hlen]) hkept fun bodies hb => ?_
      have hplaces : (DataBoundaryGateway.kept cfg
          ((chunks.take cfg.generationMaxPassages).map RetrievedChunk.text) ts).map Prod.fst =
          (leaving cfg (chunks.take cfg.generationMaxPassages) ts).map Prod.snd := by
        rw [kept_eq, List.map_map]
        rfl
      rw [kept_eq, List.length_map] at hb
      rw [hplaces, sentChunks_eq hb, hleaving, sentChunks_eq (by rw [hb, hleaving])]
    rw [hsend, sentChunks_kept, sentChunks_kept, hleaving]

/-- Without a PUBLIC passage nothing is sent. -/
theorem answer_silent (hno : ∀ i < chunks.length, ¬ PublicAt cfg tiers i) :
    (answer u cfg provider question chunks true tiers).1 = [] := by
  unfold answer
  split
  · rfl
  · dsimp only
    generalize hts : suppliedTiers chunks tiers (chunks.take cfg.generationMaxPassages).length = ts
    have hkept : DataBoundaryGateway.kept cfg
        ((chunks.take cfg.generationMaxPassages).map RetrievedChunk.text) ts = [] := by
      rw [kept_eq, List.map_eq_nil_iff, List.eq_nil_iff_forall_not_mem]
      intro p hp
      obtain ⟨hc, ht⟩ := mem_leaving hcfg hp
      have hin : p.2 < chunks.length := by
        obtain ⟨hlt, -⟩ := List.getElem?_eq_some_iff.mp hc
        rw [List.length_take] at hlt
        omega
      exact hno p.2 hin (publicAt_of_supplied (hts ▸ ht))
    unfold DataBoundaryGateway.send
    split
    · rename_i hsend
      rfl
    · rename_i crossing hsend
      exfalso
      split at hsend
      · cases hsend
      · rw [hkept] at hsend
        cases hsend

/-- A citation is of a passage that was given under a PUBLIC tier. -/
theorem answer_cites {a : GeneratedAnswer}
    (h : (answer u cfg provider question chunks true tiers).2 = .ok a) :
    ∀ cit ∈ a.citations, ∃ i c, PublicAt cfg tiers i ∧ chunks[i]? = some c ∧
      cit.chunkId = c.chunkId ∧ cit.documentId = c.documentId := by
  intro cit hcit
  unfold answer at h
  split at h
  · cases h
    cases hcit
  · dsimp only at h
    split at h
    · cases h
      cases hcit
    · dsimp only at h
      split at h
      · cases h
      · cases h
      · cases h
        obtain ⟨c, hc, hids⟩ := mem_citation hcit
        rw [sentChunks_kept] at hc
        obtain ⟨p, hp, rfl⟩ := List.mem_map.mp hc
        obtain ⟨hat, ht⟩ := mem_leaving hcfg hp
        have hpub : PublicAt cfg tiers p.2 := publicAt_of_supplied ht
        rw [List.getElem?_take_of_lt hpub.1] at hat
        exact ⟨p.2, p.1.1, hpub, hat, hids⟩

end TwoCalls

/-- Two calls that agree on the PUBLIC passages ask the same and answer the same. -/
theorem withheld_unread (u : Unicode) (hcfg : cfg.generationIncludeRestricted = false)
    (provider : AnswerProvider) (question : Text) (hlen : chunks.length = chunks'.length)
    (hagree : ∀ i, PublicAt cfg tiers i → chunks[i]? = chunks'[i]?) :
    answer u cfg provider question chunks true tiers =
        answer u cfg provider question chunks' true tiers ∧
      ((∀ i < chunks.length, ¬ PublicAt cfg tiers i) →
        (answer u cfg provider question chunks true tiers).1 = []) ∧
      ∀ a, (answer u cfg provider question chunks true tiers).2 = .ok a →
        ∀ cit ∈ a.citations, ∃ i c, PublicAt cfg tiers i ∧ chunks[i]? = some c ∧
          cit.chunkId = c.chunkId ∧ cit.documentId = c.documentId :=
  ⟨answer_congr hcfg hlen hagree, answer_silent hcfg, fun _ => answer_cites hcfg⟩

/-- A passage that is withheld, under one text and another. -/
def sealedChunk (text : String) : RetrievedChunk where
  chunkId := 1
  documentId := 1
  filename := text.toList
  text := text.toList
  pageNumber := none
  sectionHeading := none

theorem sealed_passage_unread :
    answer ascii boundarySettings quietProvider "Filed?".toList
        [sealedChunk "bids", headedChunk] true (some [some "RESTRICTED", some "PUBLIC"]) =
      answer ascii boundarySettings quietProvider "Filed?".toList
        [sealedChunk "prices", headedChunk] true (some [some "RESTRICTED", some "PUBLIC"]) := by
  refine (withheld_unread ascii rfl quietProvider _ rfl ?_).1
  rintro i ⟨-, given, hgiven, hi⟩
  obtain rfl := Option.some.inj hgiven
  match i with
  | 0 => exact absurd hi (by decide)
  | 1 => rfl
  | _ + 2 => rfl

end AnswerService

end KnowledgeBase
