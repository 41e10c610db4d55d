import KnowledgeBase.Stranding

/-! What every operation of every program keeps, a run of the system keeps, whoever crashes,
stalls or overtakes whom in it. -/

namespace KnowledgeBase

open Program RunningState

/-- The shared state is as it should be, and the programs at work send only what keeps it so. -/
structure Keeping (I : World → Prop) (allowed : Op → Prop)
    (expected : (op : Op) → Except Exn op.Resp → Prop) (s : RunningState) : Prop where
  world : I s.world
  uploads : ∀ id p, s.uploads id = some p → p.Sends allowed expected
  workers : ∀ i item, s.current i = some item → (s.rest i).Sends allowed expected

/-- Operations that may be sent keep the invariant, and only such answers come as are expected. -/
structure Safe (sv : Services) (I : World → Prop) (allowed : Op → Prop)
    (expected : (op : Op) → Except Exn op.Resp → Prop) : Prop where
  keeps : ∀ {op r w w'}, allowed op → Acts sv op w r w' → I w → I w'
  expects : ∀ {op r w w'}, Acts sv op w r w' → I w → expected op r
  jobs : ∀ stage id, (processJob sv stage id).Sends allowed expected

/-- What holds of all values of a function, one of which is set to another that it holds of. -/
theorem update_some {ι β : Type} [DecidableEq ι] {P : β → Prop} {f : ι → Option β} {i : ι}
    {x : Option β} (hf : ∀ j b, f j = some b → P b) (hx : ∀ b, x = some b → P b) (j : ι) (b : β)
    (h : Function.update f i x j = some b) : P b := by
  rw [Function.update_apply] at h
  split at h
  · exact hx b h
  · exact hf j b h

variable {sv : Services} {fleet : Fleet} {I : World → Prop} {allowed : Op → Prop}
  {expected : (op : Op) → Except Exn op.Resp → Prop} {s t : RunningState} {a : RunAction}

/-- One operation of a program that sends only what it may. -/
theorem Safe.operation (hsafe : Safe sv I allowed expected) {α : Type} {p q : Stage α}
    {luck : Luck} {w w' : World} (hp : p.Sends allowed expected) (hw : I w)
    (h : p.step (effect sv luck) w = some (q, w')) : q.Sends allowed expected ∧ I w' :=
  Sends.step (fun _ _ hop hv => hsafe.keeps hop ⟨luck, rfl⟩ hv)
    (fun _ _ hv => hsafe.expects ⟨luck, rfl⟩ hv) hp hw h

theorem Keeping.step (hsafe : Safe sv I allowed expected)
    (hreceive : ∀ id filename data request mimeType,
      a = .receive id filename data request mimeType →
      (UploadService.receive id filename data request mimeType).Sends allowed expected)
    (hqueue : ∀ act q, QueueCases fleet s a act → s.queue.step act = some q → I s.world →
      I { s.world with now := q.now, jobs := q.jobs })
    (hs : Keeping I allowed expected s) (h : s.step sv fleet a = some t) :
    Keeping I allowed expected t := by
  cases step_cases h with
  | receive id filename data request mimeType hfree =>
    refine ⟨hs.world, update_some hs.uploads ?_, hs.workers⟩
    rintro p hp
    obtain rfl := Option.some.inj hp
    exact hreceive id filename data request mimeType rfl
  | upload id luck p q w hp hstep =>
    obtain ⟨hq, hw⟩ := hsafe.operation (hs.uploads id p hp) hs.world hstep
    refine ⟨hw, update_some hs.uploads ?_, hs.workers⟩
    rintro p' hp'
    exact Option.some.inj hp' ▸ hq
  | endUpload id => exact ⟨hs.world, update_some hs.uploads nofun, hs.workers⟩
  | work i luck item q w hi hstep =>
    obtain ⟨hq, hw⟩ := hsafe.operation (hs.workers i item hi) hs.world hstep
    refine ⟨hw, hs.uploads, fun j item' hj => ?_⟩
    by_cases hij : j = i
    · subst hij
      show (Function.update s.rest j q j).Sends allowed expected
      rwa [Function.update_self]
    · show (Function.update s.rest i q j).Sends allowed expected
      rw [Function.update_of_ne hij]
      exact hs.workers j item' hj
  | queue _ act q hact hstep =>
    refine ⟨hqueue act q (queue_cases hact) hstep hs.world, hs.uploads, fun i item hi => ?_⟩
    show (s.started sv a q i).Sends allowed expected
    rcases queue_current (queue_cases hact) hstep hi with ⟨hc, hrest⟩ | ⟨w, row, -, rfl, hrest⟩
    · rw [hrest]
      exact hs.workers i item hc
    · rw [hrest]
      exact hsafe.jobs row.stage row.documentId

theorem Keeping.edit {w : World} (hs : Keeping I allowed expected s) (hw : I w) :
    Keeping I allowed expected { s with world := w } :=
  ⟨hw, hs.uploads, hs.workers⟩

end KnowledgeBase
