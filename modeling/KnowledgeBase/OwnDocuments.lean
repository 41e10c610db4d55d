import KnowledgeBase.HiddenDocuments

/-! What the requests of a person who is no administrator can change: their own documents, and the
refused copies of a file of theirs that they erase. -/

namespace KnowledgeBase

namespace World

theorem removeObjects_objects (luck : EraseLuck) (d : Document) (slots : List EraseSlot) (w : World)
    (b : Bucket) (k : ObjectKey) : (removeObjects luck d slots w).2.objects b k = w.objects b k ∨
      d.rawPath = some k ∨ d.quarantinePath = some k := by
  induction slots generalizing w with
  | nil => exact .inl rfl
  | cons slot slots ih =>
    rw [removeObjects]
    split
    · split
      · rcases ih (w.removeSlot d slot) with hkept | hpath
        · rw [hkept, removeSlot_objects]
          split
          · rename_i hgone
            right
            rcases hgone with ⟨⟨rfl, -⟩ | ⟨rfl, -⟩, hplace⟩
            · exact .inl hplace
            · exact .inr hplace
          · exact .inl rfl
        · exact .inr hpath
      · exact .inl rfl
    · exact ih w

theorem eraseAttempt_objects (luck : EraseLuck) (w : World) (d : Document) (b : Bucket)
    (k : ObjectKey) : (eraseAttempt luck w d).2.objects b k = w.objects b k ∨
      d.rawPath = some k ∨ d.quarantinePath = some k := by
  cases hbusy : w.busy d.id with
  | true =>
    rw [eraseAttempt, if_pos hbusy]
    exact .inl rfl
  | false =>
    obtain ⟨-, -, -, -, ho, -⟩ := claimed_rows luck w d
    have hloop := removeObjects_objects luck d eraseSlots (claimed luck w d) b k
    rw [ho] at hloop
    rw [eraseAttempt_idle luck hbusy]
    generalize removeObjects luck d eraseSlots (claimed luck w d) = result at hloop ⊢
    obtain ⟨slot, w₁⟩ := result
    cases slot with
    | some slot => exact hloop
    | none => cases luck.auditWritten <;> exact hloop

end World

namespace Api

variable {a a' a'' : Api} {v : User} {id : DocumentId} {d r r' : Document} {m : Moment}

/-- A row before and after: what it was filed as stays, what it holds stays or goes. -/
structure Descends (r r' : Document) : Prop where
  id : r'.id = r.id
  ownerId : r'.ownerId = r.ownerId
  status : r'.status = r.status
  checksum : r'.checksum = r.checksum ∨ r'.checksum = none
  rawPath : r'.rawPath = r.rawPath ∨ r'.rawPath = none
  quarantinePath : r'.quarantinePath = r.quarantinePath ∨ r'.quarantinePath = none

theorem Descends.refl (r : Document) : Descends r r :=
  ⟨rfl, rfl, rfl, .inl rfl, .inl rfl, .inl rfl⟩

theorem kept_or_lost {β : Type} {x y z : Option β} (h : y = x ∨ y = none) (h' : z = y ∨ z = none) :
    z = x ∨ z = none := by
  rcases h' with h' | h'
  · rcases h with h | h
    · exact .inl (h'.trans h)
    · exact .inr (h'.trans h)
  · exact .inr h'

theorem Descends.trans {r'' : Document} (h : Descends r r') (h' : Descends r' r'') :
    Descends r r'' :=
  ⟨h'.id.trans h.id, h'.ownerId.trans h.ownerId, h'.status.trans h.status,
    kept_or_lost h.checksum h'.checksum, kept_or_lost h.rawPath h'.rawPath,
    kept_or_lost h.quarantinePath h'.quarantinePath⟩

/-- The object under a key is one of the person's documents. -/
def FileOfOwn (v : User) (a : Api) (k : ObjectKey) : Prop :=
  ∃ d ∈ a.world.documents.rows, isOwner v d = true ∧
    (d.rawPath = some k ∨ d.quarantinePath = some k)

/-- A refused copy of a file that the person has, or had. -/
def CopyOfOwn (v : User) (a : Api) (r : Document) : Prop :=
  r.status = .duplicate ∧ ∃ d ∈ a.world.documents.rows, isOwner v d = true ∧ d.checksum ≠ none ∧
    r.checksum = d.checksum

/-- No row comes or goes or changes hands, and of those of others only refused copies of own files
change. Passages and files are lost with a document of the person's alone, and the audit log grows
by entries on such documents. -/
structure Confined (v : User) (a a' : Api) : Prop where
  rows : ∃ g : Document → Document, a'.world.documents.rows = a.world.documents.rows.map g ∧
    ∀ r ∈ a.world.documents.rows, Descends r (g r) ∧ (isOwner v r = true ∨ g r = r ∨
      CopyOfOwn v a r ∧ ∃ now, g r = r.purgedDuplicate now)
  chunks : ∀ c ∈ a.world.chunks, c ∉ a'.world.chunks →
    ∃ d ∈ a.world.documents.rows, isOwner v d = true ∧ c.documentId = d.id
  noChunks : ∀ c ∈ a'.world.chunks, c ∈ a.world.chunks
  objects : ∀ b k, a'.world.objects b k = a.world.objects b k ∨ FileOfOwn v a k
  records : ∃ entries, a'.records = a.records ++ entries ∧ ∀ e ∈ entries,
    ∃ d ∈ a.world.documents.rows, isOwner v d = true ∧ e.documentId = d.id

theorem Confined.refl (v : User) (a : Api) : Confined v a a :=
  ⟨⟨id, (List.map_id _).symm, fun r _ => ⟨.refl r, .inr (.inl rfl)⟩⟩, fun _ hc hno => absurd hc hno,
    fun _ hc => hc, fun _ _ => .inl rfl, [], (List.append_nil _).symm,
    fun _ he => absurd he List.not_mem_nil⟩

theorem isOwner_congr (h : r'.ownerId = r.ownerId) : isOwner v r' = isOwner v r := by
  simp only [isOwner, h]

theorem Confined.trans (h : Confined v a a') (h' : Confined v a' a'') : Confined v a a'' := by
  obtain ⟨g, hg, hrow⟩ := h.rows
  obtain ⟨g', hg', hrow'⟩ := h'.rows
  have hback : ∀ d' ∈ a'.world.documents.rows, isOwner v d' = true →
      ∃ d ∈ a.world.documents.rows, isOwner v d = true ∧ Descends d d' := by
    intro d' hd' hown
    rw [hg] at hd'
    obtain ⟨d, hd, rfl⟩ := List.mem_map.mp hd'
    exact ⟨d, hd, by rwa [isOwner_congr (hrow d hd).1.ownerId] at hown, (hrow d hd).1⟩
  have hmem : ∀ r ∈ a.world.documents.rows, g r ∈ a'.world.documents.rows := by
    intro r hr
    rw [hg]
    exact List.mem_map_of_mem hr
  refine ⟨⟨g' ∘ g, by rw [hg', hg, List.map_map], fun r hr => ?_⟩, ?_, ?_, fun b k => ?_, ?_⟩
  · obtain ⟨hdesc, hkind⟩ := hrow r hr
    obtain ⟨hdesc', hkind'⟩ := hrow' (g r) (hmem r hr)
    refine ⟨hdesc.trans hdesc', ?_⟩
    simp only [Function.comp_apply]
    rcases hkind with hown | hkept | ⟨hcopy, now, hpurged⟩
    · exact .inl hown
    · rw [hkept] at hkind' ⊢
      rcases hkind' with hown | hkept' | ⟨⟨hdup, d', hd', hown, hne, hsum⟩, now, hpurged⟩
      · exact .inl hown
      · exact .inr (.inl hkept')
      · obtain ⟨d, hd, hown', hdesc⟩ := hback d' hd' hown
        have hsame : d'.checksum = d.checksum := hdesc.checksum.resolve_right hne
        exact .inr (.inr ⟨⟨hdup, d, hd, hown', hsame ▸ hne, hsum.trans hsame⟩, now, hpurged⟩)
    · have hnone : (g r).checksum = none := by
        rw [hpurged]
        rfl
      rcases hkind' with hown | hkept' | ⟨⟨-, d', -, -, hne, hsum⟩, -⟩
      · left
        rwa [isOwner_congr hdesc.ownerId] at hown
      · exact .inr (.inr ⟨hcopy, now, hkept'.trans hpurged⟩)
      · exact absurd (hsum.symm.trans hnone) hne
  · intro c hc hno
    by_cases hmid : c ∈ a'.world.chunks
    · obtain ⟨d', hd', hown, hid⟩ := h'.chunks c hmid hno
      obtain ⟨d, hd, hown', hdesc⟩ := hback d' hd' hown
      exact ⟨d, hd, hown', hid.trans hdesc.id⟩
    · exact h.chunks c hc hmid
  · exact fun c hc => h.noChunks c (h'.noChunks c hc)
  · rcases h'.objects b k with hkept | ⟨d', hd', hown, hpath⟩
    · exact (h.objects b k).imp_left hkept.trans
    · obtain ⟨d, hd, hown', hdesc⟩ := hback d' hd' hown
      refine .inr ⟨d, hd, hown', ?_⟩
      rcases hpath with hpath | hpath
      · left
        rcases hdesc.rawPath with hr | hr
        · exact hr.symm.trans hpath
        · exact absurd (hpath.symm.trans hr) (Option.some_ne_none k)
      · right
        rcases hdesc.quarantinePath with hr | hr
        · exact hr.symm.trans hpath
        · exact absurd (hpath.symm.trans hr) (Option.some_ne_none k)
  · obtain ⟨entries, hentries, hon⟩ := h.records
    obtain ⟨entries', hentries', hon'⟩ := h'.records
    refine ⟨entries ++ entries', by rw [hentries', hentries, List.append_assoc], fun e he => ?_⟩
    rcases List.mem_append.mp he with he | he
    · exact hon e he
    · obtain ⟨d', hd', hown, hid⟩ := hon' e he
      obtain ⟨d, hd, hown', hdesc⟩ := hback d' hd' hown
      exact ⟨d, hd, hown', hid.trans hdesc.id⟩

theorem Confined.of_same (hrows : a'.world.documents.rows = a.world.documents.rows)
    (hchunks : a'.world.chunks = a.world.chunks) (hobjects : a'.world.objects = a.world.objects)
    (hrecords : a'.records = a.records) : Confined v a a' := by
  obtain ⟨hr, hc, hn, ho, hl⟩ := Confined.refl v a
  exact ⟨by rwa [hrows], by rwa [hchunks], by rwa [hchunks], by rwa [hobjects], by rwa [hrecords]⟩

theorem owner_of_mayChange (hplain : v.role ≠ .admin) (hmay : mayChange v d = true) :
    isOwner v d = true := by
  simpa [mayChange, hplain] using hmay

theorem row_of_id (hd : a.docFor v id = some d) (hr : r ∈ a.world.documents.rows)
    (hid : r.id = id) : r = d := by
  have hget := Documents.get_of_mem hr
  rw [hid, (mem_seen hd).1] at hget
  exact (Option.some.inj hget).symm

theorem own_row (hd : a.docFor v id = some d) (hown : isOwner v d = true) :
    ∃ d ∈ a.world.documents.rows, isOwner v d = true ∧ id = d.id :=
  ⟨d, Documents.mem_of_get (mem_seen hd).1, hown, (Documents.get_id (mem_seen hd).1).symm⟩

theorem confined_modify {f : Document → Document} {written : Bool} {record : AuditRecord}
    {t : Documents} (hd : a.docFor v id = some d) (hown : isOwner v d = true)
    (ht : a.world.documents.modify id f = some t) (hf : ∀ r, Descends r { f r with id := r.id })
    (hrecord : record.documentId = id) : Confined v a ((a.log written record).withWorld
      { (a.log written record).world with documents := t }) := by
  have hw : Writes a ((a.log written record).withWorld
      { (a.log written record).world with documents := t }) _ (fun _ => true)
      (if written then [record] else []) := writes_modify ht
  have hchunks := hw.world.chunks
  rw [List.filter_true] at hchunks
  refine ⟨⟨_, hw.world.rows, fun r hr => ?_⟩, fun c hc hno => ?_, fun c hc => ?_,
    fun b k => .inl (by cases written <;> rfl), ⟨_, hw.records, fun e he => ?_⟩⟩
  · split
    · rename_i hid
      exact ⟨hf r, .inl (by rw [row_of_id hd hr hid, hown])⟩
    · exact ⟨.refl r, .inr (.inl rfl)⟩
  · rw [hchunks] at hno
    exact absurd hc hno
  · rwa [hchunks] at hc
  · cases written with
    | true =>
      rw [if_pos rfl, List.mem_singleton] at he
      rw [he, hrecord]
      exact own_row hd hown
    | false => simp at he

theorem Changes.confined {f : Document → Document} {ok : Api → Prop}
    {request : Api → ApiReply × Api} (hc : Changes v id d f ok request)
    (hd : a.docFor v id = some d) (hok : ok a) (hown : isOwner v d = true)
    (hf : ∀ r, Descends r { f r with id := r.id }) : Confined v a (request a).2 := by
  obtain ⟨reply, written, record, hrecord, hsame⟩ := hc.same
  obtain ⟨t, ht, ha⟩ := hsame a hd hok
  rw [ha]
  exact confined_modify hd hown ht hf hrecord

theorem reclassify_confined (hplain : v.role ≠ .admin) (classification : Classification)
    (reason : Option String) :
    Confined v a (a.reclassifyDocument m v id classification reason).2 := by
  cases hd : a.docFor v id with
  | none => simpa [reclassifyDocument, hd] using Confined.refl v a
  | some d =>
    by_cases hmay : mayChange v d = true
    · by_cases hpurged : d.purgedAt = none
      · by_cases hne : d.classification = some classification
        · simpa [reclassifyDocument, hd, hmay, hpurged, hne] using Confined.refl v a
        · exact (reclassify_changes hmay hpurged hne).confined hd trivial
            (owner_of_mayChange hplain hmay) fun r => ⟨rfl, rfl, rfl, .inl rfl, .inl rfl, .inl rfl⟩
      · simpa [reclassifyDocument, hd, hmay, hpurged] using Confined.refl v a
    · simpa [reclassifyDocument, hd, hmay] using Confined.refl v a

theorem restore_confined (hplain : v.role ≠ .admin) :
    Confined v a (a.restoreDocument m v id).2 := by
  cases hd : a.docFor v id with
  | none => simpa [restoreDocument, hd] using Confined.refl v a
  | some d =>
    by_cases hmay : mayChange v d = true
    · by_cases hpurged : d.purgedAt = none
      · by_cases hdeleted : d.deletedAt = none
        · simpa [restoreDocument, hd, hmay, hpurged, hdeleted] using Confined.refl v a
        · by_cases hcurrent : d.status = .superseded
          · simpa [restoreDocument, hd, hmay, hpurged, hdeleted, hcurrent] using Confined.refl v a
          · cases hr : a.removedFromDrive id with
            | true =>
              simpa [restoreDocument, hd, hmay, hpurged, hdeleted, hcurrent, hr]
                using Confined.refl v a
            | false =>
              exact (restore_changes hmay hpurged hdeleted hcurrent).confined hd hr
                (owner_of_mayChange hplain hmay)
                fun r => ⟨rfl, rfl, rfl, .inl rfl, .inl rfl, .inl rfl⟩
      · simpa [restoreDocument, hd, hmay, hpurged] using Confined.refl v a
    · simpa [restoreDocument, hd, hmay] using Confined.refl v a

theorem delete_confined (hplain : v.role ≠ .admin) : Confined v a (a.deleteDocument m v id).2 := by
  cases hd : a.docFor v id with
  | none => simpa [deleteDocument, hd] using Confined.refl v a
  | some d =>
    by_cases hmay : mayChange v d = true
    · by_cases hpurged : d.purgedAt = none
      · have hown := owner_of_mayChange hplain hmay
        have hrow := Documents.mem_of_get (mem_seen hd).1
        have hdid := Documents.get_id (mem_seen hd).1
        have hra := World.eraseAttempt_rewritten m.luck a.world d
        have hobjects := World.eraseAttempt_objects m.luck a.world d
        simp only [deleteDocument, hd, hmay, hpurged, Bool.not_true, Bool.false_eq_true, ne_eq,
          not_true_eq_false, if_false]
        generalize World.eraseAttempt m.luck a.world d = ra at hra hobjects ⊢
        obtain ⟨outcome, w⟩ := ra
        have hrecorded : ∀ entries : List AuditRecord, (∀ e ∈ entries, e.documentId = id) →
            Confined v a { a.withWorld w with records := a.records ++ entries } := by
          intro entries hon
          refine ⟨⟨_, hra.rows, fun r hr => ?_⟩, fun c hc hno => ?_, fun c hc => ?_,
            fun b k => (hobjects b k).imp_right fun hpath => ⟨d, hrow, hown, hpath⟩,
            ⟨entries, rfl, fun e he => ?_⟩⟩
          · simp only [World.erasedRow, World.tombstone]
            split
            · split
              · rename_i hpurge
                rw [row_of_id hd hr (hpurge.1.trans hdid)]
                exact ⟨⟨rfl, rfl, rfl, .inr rfl, .inr rfl, .inr rfl⟩, .inl hown⟩
              · split
                · rename_i hcopy
                  exact ⟨⟨rfl, rfl, rfl, .inr rfl, .inl rfl, .inr rfl⟩,
                    .inr (.inr ⟨⟨hcopy.2.2, d, hrow, hown, hcopy.1, hcopy.2.1⟩, _, rfl⟩)⟩
                · exact ⟨.refl r, .inr (.inl rfl)⟩
            · exact ⟨.refl r, .inr (.inl rfl)⟩
          · have hchunks : w.chunks = a.world.chunks.filter (World.keptChunk outcome d) :=
              hra.chunks
            have hno' : c ∉ w.chunks := hno
            rw [hchunks, List.mem_filter, not_and] at hno'
            have hlost := hno' hc
            simp only [World.keptChunk, Bool.or_eq_true, decide_eq_true_eq, not_or,
              not_not] at hlost
            exact ⟨d, hrow, hown, hlost.2⟩
          · have hchunks : w.chunks = a.world.chunks.filter (World.keptChunk outcome d) :=
              hra.chunks
            have hc' : c ∈ w.chunks := hc
            rw [hchunks] at hc'
            exact List.mem_of_mem_filter hc'
          · rw [hon e he]
            exact own_row hd hown
        have hstill := hrecorded [] (by simp)
        simp only [List.append_nil] at hstill
        cases hw : m.luck.auditWritten <;> cases outcome <;>
          simp only [if_true, Bool.false_eq_true, if_false, Confined.refl]
        all_goals first
          | exact hstill
          | exact hrecorded _ (by simp)
      · simpa [deleteDocument, hd, hmay, hpurged] using Confined.refl v a
    · simpa [deleteDocument, hd, hmay] using Confined.refl v a

theorem answer_confined (u : Unicode) (e : TextSearch) (hplain : v.role ≠ .admin)
    (request : Moment × ApiRequest) (a : Api) : Confined v a (answer u e v request a).2 := by
  obtain ⟨m, request⟩ := request
  have hnow : Confined v a (a.withWorld { a.world with now := m.now }) := .of_same rfl rfl rfl rfl
  cases request with
  | classify id classification reason =>
    exact hnow.trans (reclassify_confined hplain classification reason)
  | delete id => exact hnow.trans (delete_confined hplain)
  | restore id => exact hnow.trans (restore_confined hplain)
  | status | download | chunks | deleted | list | search => exact hnow

/-- Whatever a person who is no administrator asks for, and in whatever order, what others have
stays as it was. -/
theorem run_confined (u : Unicode) (e : TextSearch) (hplain : v.role ≠ .admin) (a : Api)
    (requests : List (Moment × ApiRequest)) :
    Confined v a (Unwinding.final (answer u e v) a requests) := by
  induction requests generalizing a with
  | nil => exact .refl v a
  | cons request requests ih => exact (answer_confined u e hplain request a).trans (ih _)

section Restoring

theorem restored_iff : (∃ status, (a.restoreDocument m v id).1 = .restored id status) ↔
    ∃ d, a.docFor v id = some d ∧ mayChange v d = true ∧ d.purgedAt = none ∧ d.deletedAt ≠ none ∧
      d.status ≠ .superseded ∧ a.removedFromDrive id = false := by
  cases hd : a.docFor v id with
  | none => simp [restoreDocument, hd, notFound]
  | some d =>
    by_cases hmay : mayChange v d = true
    · by_cases hpurged : d.purgedAt = none
      · by_cases hdeleted : d.deletedAt = none
        · simp [restoreDocument, hd, hmay, hpurged, hdeleted, conflict]
        · by_cases hcurrent : d.status = .superseded
          · simp [restoreDocument, hd, hmay, hpurged, hdeleted, hcurrent, conflict]
          · cases hr : a.removedFromDrive id with
            | true =>
              simp [restoreDocument, hd, hmay, hpurged, hdeleted, hcurrent, hr, conflict]
            | false =>
              obtain ⟨t, -, he⟩ :=
                restoreDocument_accepted m hd hmay hpurged hdeleted hcurrent hr
              simp [he, hmay, hpurged, hdeleted, hcurrent]
      · simp [restoreDocument, hd, hmay, hpurged, gone]
    · simp [restoreDocument, hd, hmay, forbidden]

theorem offered_iff : d ∈ offeredBack a.world.documents.rows (some v.userId) (isAdmin v.role) ↔
    d ∈ a.world.documents.rows ∧ mayChange v d = true ∧ d.purgedAt = none ∧ d.deletedAt ≠ none ∧
      d.status ≠ .superseded ∧ d.status ≠ .duplicate := by
  have hrule : (isAdmin v.role || (some v.userId ≠ none && d.ownerId = some v.userId)) =
      mayChange v d := by
    cases howner : d.ownerId <;> simp [isAdmin, mayChange, isOwner, howner, Bool.or_comm]
  simp only [offeredBack, List.mem_filter, hrule, Bool.and_eq_true, decide_eq_true_eq]
  tauto

/-- The list of deleted documents names, as restorable here, what a restore accepts (refused copies
apart, which it does not list), and what is restored is in the list of documents again. -/
theorem restorable_as_listed {limit : Int} (hlimit : (offeredBack a.world.documents.rows
    (some v.userId) (isAdmin v.role)).length ≤ deletedLimit limit) :
    ∃ ds, a.listDeletedDocuments m v limit = .deletedDocuments ds ∧ ∀ id,
      ((∃ p ∈ ds, p.1.document.id = id ∧ p.2 = false) ↔
        ∃ d, a.docFor v id = some d ∧ d.status ≠ .duplicate ∧
          (a.restoreDocument m v id).1 = .restored id d.status.value) ∧
      ∀ status, (a.restoreDocument m v id).1 = .restored id status →
        ∃ d ∈ (a.restoreDocument m v id).2.repository.listed (some v.userId) (isAdmin v.role),
          d.id = id := by
  let offered := offeredBack a.world.documents.rows (some v.userId) (isAdmin v.role)
  refine ⟨(m.sort offered).map fun d => (a.withUploader d, a.removedFromDrive d.id), ?_,
    fun id => ⟨?_, ?_⟩⟩
  · have htake : (m.sort offered).take (deletedLimit limit) = m.sort offered :=
      List.take_of_length_le ((m.sort_perm offered).length_eq.trans_le hlimit)
    simp only [listDeletedDocuments, PostgreSQLDocumentRepository.listDeleted, reduceCtorEq,
      and_false, if_false]
    rw [show offeredBack a.repository.documents.rows (some v.userId) (isAdmin v.role) = offered
      from rfl, htake]
  · constructor
    · rintro ⟨p, hp, rfl, hdrive⟩
      obtain ⟨d, hd, rfl⟩ := List.mem_map.mp hp
      obtain ⟨hrow, hmay, hpurged, hdeleted, hcurrent, hdup⟩ :=
        offered_iff.mp ((m.sort_perm offered).mem_iff.mp hd)
      have hfor : a.docFor v d.id = some d := by
        apply docFor_eq_some.mpr
        exact ⟨List.mem_filter.mpr ⟨hrow, canSee_of_mayChange hmay⟩, rfl⟩
      obtain ⟨t, -, he⟩ := restoreDocument_accepted m hfor hmay hpurged hdeleted hcurrent hdrive
      exact ⟨d, hfor, hdup, congrArg Prod.fst he⟩
    · rintro ⟨d, hfor, hdup, he⟩
      obtain ⟨d', hfor', hmay, hpurged, hdeleted, hcurrent, hdrive⟩ := restored_iff.mp ⟨_, he⟩
      obtain rfl : d = d' := Option.some.inj (hfor.symm.trans hfor')
      have hid := (docFor_eq_some.mp hfor).2
      have hrow := Documents.mem_of_get (mem_seen hfor).1
      refine ⟨_, List.mem_map.mpr ⟨d, (m.sort_perm offered).mem_iff.mpr ?_, rfl⟩, hid, ?_⟩
      · exact offered_iff.mpr ⟨hrow, hmay, hpurged, hdeleted, hcurrent, hdup⟩
      · rwa [hid]
  · intro status he
    obtain ⟨d, hfor, hmay, hpurged, hdeleted, hcurrent, hdrive⟩ := restored_iff.mp ⟨status, he⟩
    obtain ⟨t, ht, hresult⟩ := restoreDocument_accepted m hfor hmay hpurged hdeleted hcurrent hdrive
    have hget := Documents.modify_get_self ht (mem_seen hfor).1
    rw [hresult]
    refine ⟨_, List.mem_filter.mpr ⟨Documents.mem_of_get hget, ?_⟩, rfl⟩
    have hsee : canSee v { d with id := id, deletedAt := none } = true := canSee_own hmay rfl
    rw [canSee, canView_eq] at hsee
    simpa using hsee

end Restoring

section Example

def ownMemo : Document :=
  { RetrievalService.openDocument with id := 2, ownerId := some 1, deletedAt := some 3 }

def twoMemoRows : Documents := ⟨[RetrievalService.openDocument, ownMemo], by decide, by decide⟩

def memoApi : Api where
  drive :=
    { world := { World.empty with documents := twoMemoRows }
      files := []
      versions := fun _ => [] }
  createdAt _ := 0
  users := Auth.oneUser
  records := []

def noon : Moment where
  now := 12
  luck := { auditWritten := true, deletes := fun _ => true }
  sort ds := ds
  sort_perm _ := .refl _

theorem memo_confined : Confined Auth.demoAccount memoApi
    (Unwinding.final (answer ascii PostgreSQLDocumentRepository.inTitle Auth.demoAccount) memoApi
      [(noon, .restore 2), (noon, .classify 0 .restricted none), (noon, .delete 2)]) :=
  run_confined ascii _ (by decide) memoApi _

theorem memo_restorable : ∃ ds, memoApi.listDeletedDocuments noon Auth.demoAccount 100 =
    .deletedDocuments ds ∧ ∀ id, ((∃ p ∈ ds, p.1.document.id = id ∧ p.2 = false) ↔
      ∃ d, memoApi.docFor Auth.demoAccount id = some d ∧ d.status ≠ .duplicate ∧
        (memoApi.restoreDocument noon Auth.demoAccount id).1 = .restored id d.status.value) := by
  have hlimit : (offeredBack memoApi.world.documents.rows (some Auth.demoAccount.userId)
      (isAdmin Auth.demoAccount.role)).length ≤ deletedLimit 100 := by decide
  obtain ⟨ds, hds, hall⟩ := restorable_as_listed (m := noon) hlimit
  exact ⟨ds, hds, fun id => (hall id).1⟩

end Example

end Api

end KnowledgeBase
