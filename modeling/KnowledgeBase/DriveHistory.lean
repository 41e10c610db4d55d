import KnowledgeBase.DriveSettle
import KnowledgeBase.Erasure
import KnowledgeBase.StageHandlers

/-! The running connector: passes over the watched folders, file by file, with the
pipeline and people at work in between. -/

namespace KnowledgeBase

open Program

abbrev Entry := DriveFile × Classification × FolderId

/-- What a pass finds: each file once, with its tier and folder. -/
structure Listing where
  found : DriveSyncService.Found
  keys : (found.map Prod.fst).Nodup
  named : ∀ e ∈ found, e.2.1.fileId = e.1

namespace Listing

def files (l : Listing) : List FileId := l.found.map Prod.fst

/-- In the order of their names, and no more than the limit. -/
def items (l : Listing) (limit : Option Nat) : List Entry :=
  let sorted := (l.found.map Prod.snd).insertionSort fun a b => a.1.name ≤ b.1.name
  match limit with
  | none => sorted
  | some n => sorted.take n

end Listing

/-- The files still to sync, then those still to retire, then those still to reconcile. -/
inductive Phase where
  | syncing (items : List Entry)
  | retiring (files : List FileId)
  | reconciling (files : List FileId)

structure Pass where
  listing : Listing
  limited : Bool
  phase : Phase

/-- A full pass that has come to its end. -/
def Pass.Complete (p : Pass) : Prop := p.limited = false ∧ p.phase = .reconciling []

structure SyncState where
  store : DriveState
  pass : Option Pass

inductive SyncAction where
  | syncOnce (listing : Listing) (limit : Option Nat)
  | syncItem (id : DocumentId) (fetched : Except Exn Bytes) (luck : Nat → DriveLuck)
  | dieInItem (id : DocumentId) (fetched : Except Exn Bytes) (luck : Nat → DriveLuck)
      (operations : Nat)
  | nextPhase
  | retireFile
  | reconcileFile
  | finish
  | stage (stage : JobStage) (id : DocumentId) (luck : Nat → Luck) (operations : Nat)
  | classify (id : DocumentId) (tier : Classification)
  | restoreInApp (id : DocumentId)
  | erase (id : DocumentId)

namespace SyncState

/-- The document's file is gone from the watched folders. -/
def removedFromDrive (s : DriveState) (id : DocumentId) : Bool :=
  s.files.any fun p => p.2.state = .removed && (s.versions p.1).any (·.documentId = id)

/-- `POST /documents/{id}/classify`. -/
def classify (s : DriveState) (id : DocumentId) (tier : Classification) : Option DriveState :=
  match s.doc id with
  | none => none
  | some d =>
    if d.purgedAt ≠ none ∨ d.classification = some tier then none
    else some { s with world := s.world.setClassification id tier }

/-- `POST /documents/{id}/restore`. -/
def restoreInApp (s : DriveState) (id : DocumentId) : Option DriveState :=
  match s.doc id with
  | none => none
  | some d =>
    if d.purgedAt ≠ none ∨ d.deletedAt = none ∨ d.status = .superseded ∨
        removedFromDrive s id = true then none
    else some { s with world := (s.world.restore id).2 }

/-- `DELETE /documents/{id}`. -/
def erase (s : DriveState) (id : DocumentId) : Option DriveState :=
  match s.doc id with
  | none => none
  | some d =>
    if d.purgedAt ≠ none then none else some { s with world := s.world.eraseDocument d }

def step (sv : Services) (cfg : DriveConfig) (s : SyncState) : SyncAction → Option SyncState
  | .syncOnce listing limit =>
    if s.pass.isNone then
      some { s with
        pass := some { listing, limited := limit.isSome,
                       phase := .syncing (listing.items limit) } }
    else none
  | .syncItem id fetched luck =>
    match s.pass with
    | some { listing, limited, phase := .syncing ((item, tier, folderId) :: items) } =>
      -- the id of a new document is a fresh one
      if (s.store.doc id).isNone then
        match run (driveEffect sv fetched) luck
            (DriveSyncService.syncItem cfg id item tier folderId) s.store with
        | (.ok _, store) => some { store, pass := some { listing, limited, phase := .syncing items } }
        | (.error _, store) => some { store, pass := none }
      else none
    | _ => none
  | .dieInItem id fetched luck operations =>
    match s.pass with
    | some { phase := .syncing ((item, tier, folderId) :: _), .. } =>
      if (s.store.doc id).isNone then
        some { store := (after (driveEffect sv fetched) luck operations
                 (DriveSyncService.syncItem cfg id item tier folderId) s.store).2, pass := none }
      else none
    | _ => none
  | .nextPhase =>
    match s.pass with
    | some { listing, limited, phase := .syncing [] } =>
      let gone := if limited then [] else DriveSyncService.vanished s.store listing.files
      some { s with pass := some { listing, limited, phase := .retiring gone } }
    | some { listing, limited, phase := .retiring [] } =>
      some { s with
        pass := some { listing, limited,
                       phase := .reconciling (DriveSyncService.pendingFiles s.store) } }
    | _ => none
  | .retireFile =>
    match s.pass with
    | some { listing, limited, phase := .retiring (f :: files) } =>
      some { store := DriveSyncService.retireFile s.store f,
             pass := some { listing, limited, phase := .retiring files } }
    | _ => none
  | .reconcileFile =>
    match s.pass with
    | some { listing, limited, phase := .reconciling (f :: files) } =>
      some { store := DriveSyncService.reconcileFile sv s.store f,
             pass := some { listing, limited, phase := .reconciling files } }
    | _ => none
  | .finish =>
    match s.pass with
    | some { phase := .reconciling [], .. } => some { s with pass := none }
    | _ => none
  | .stage stage id luck operations =>
    some { s with
      store := { s.store with
        world := (after (effect sv) luck operations (processJob sv stage id) s.store.world).2 } }
  | .classify id tier => (classify s.store id tier).map fun store => { s with store }
  | .restoreInApp id => (restoreInApp s.store id).map fun store => { s with store }
  | .erase id => (erase s.store id).map fun store => { s with store }

/-- Nothing has been synced yet; documents there may be. -/
structure Fresh (s : SyncState) : Prop where
  files : s.store.files = []
  versions : ∀ f, s.store.versions f = []
  pass : s.pass = none

end SyncState

/-- The database is up and the process of the sync stays alive. -/
def SyncAction.Undisturbed : SyncAction → Prop
  | .syncItem _ _ luck => ∀ n, (luck n).outage = none
  | .dieInItem _ _ _ _ => False
  | _ => True

namespace SyncState

/-- Everything one undisturbed step can do. -/
inductive StepCases (sv : Services) (cfg : DriveConfig) (s : SyncState) :
    SyncAction → SyncState → Prop
  | begins (listing : Listing) (limit : Option Nat) (hp : s.pass = none) :
      StepCases sv cfg s (.syncOnce listing limit) { s with
        pass := some { listing, limited := limit.isSome,
                       phase := .syncing (listing.items limit) } }
  | syncs (id : DocumentId) (fetched : Except Exn Bytes) (luck : Nat → DriveLuck)
      (listing : Listing) (limited : Bool) (item : DriveFile) (tier : Classification)
      (folderId : FolderId) (items : List Entry) (store : DriveState)
      (hp : s.pass = some
        { listing, limited, phase := .syncing ((item, tier, folderId) :: items) })
      (hfresh : s.store.doc id = none)
      (h : DriveSyncService.Synced cfg id fetched item tier folderId s.store store) :
      StepCases sv cfg s (.syncItem id fetched luck)
        { store, pass := some { listing, limited, phase := .syncing items } }
  | turnsToGone (listing : Listing) (limited : Bool)
      (hp : s.pass = some { listing, limited, phase := .syncing [] }) :
      StepCases sv cfg s .nextPhase { s with
        pass := some { listing, limited,
                       phase := .retiring (if limited then [] else
                         DriveSyncService.vanished s.store listing.files) } }
  | turnsToPending (listing : Listing) (limited : Bool)
      (hp : s.pass = some { listing, limited, phase := .retiring [] }) :
      StepCases sv cfg s .nextPhase { s with
        pass := some { listing, limited,
                       phase := .reconciling (DriveSyncService.pendingFiles s.store) } }
  | retires (listing : Listing) (limited : Bool) (f : FileId) (files : List FileId)
      (hp : s.pass = some { listing, limited, phase := .retiring (f :: files) }) :
      StepCases sv cfg s .retireFile
        { store := DriveSyncService.retireFile s.store f,
          pass := some { listing, limited, phase := .retiring files } }
  | reconciles (listing : Listing) (limited : Bool) (f : FileId) (files : List FileId)
      (hp : s.pass = some { listing, limited, phase := .reconciling (f :: files) }) :
      StepCases sv cfg s .reconcileFile
        { store := DriveSyncService.reconcileFile sv s.store f,
          pass := some { listing, limited, phase := .reconciling files } }
  | finishes (listing : Listing) (limited : Bool)
      (hp : s.pass = some { listing, limited, phase := .reconciling [] }) :
      StepCases sv cfg s .finish { s with pass := none }
  | works (stage : JobStage) (id : DocumentId) (luck : Nat → Luck) (operations : Nat) (w : World)
      (h : Visits (Acts sv) (processJob sv stage id) s.store.world w) :
      StepCases sv cfg s (.stage stage id luck operations)
        { s with store := { s.store with world := w } }
  | classifies (id : DocumentId) (tier : Classification) (store : DriveState)
      (h : classify s.store id tier = some store) :
      StepCases sv cfg s (.classify id tier) { s with store }
  | restores (id : DocumentId) (store : DriveState) (h : restoreInApp s.store id = some store) :
      StepCases sv cfg s (.restoreInApp id) { s with store }
  | erases (id : DocumentId) (store : DriveState) (h : erase s.store id = some store) :
      StepCases sv cfg s (.erase id) { s with store }

theorem step_cases {sv : Services} {cfg : DriveConfig} {s t : SyncState} {a : SyncAction}
    (h : step sv cfg s a = some t) (ha : a.Undisturbed) : StepCases sv cfg s a t := by
  cases a with
  | syncOnce listing limit =>
    simp only [step] at h
    split at h
    · rename_i hp
      obtain rfl := Option.some.inj h
      exact .begins listing limit (Option.isNone_iff_eq_none.mp hp)
    · cases h
  | syncItem id fetched luck =>
    simp only [step] at h
    split at h
    · rename_i listing limited item tier folderId items hp
      split at h
      · rename_i hfresh
        have hact : ∀ n op u, Steady sv fetched op u (driveEffect sv fetched (luck n) op u).1
            (driveEffect sv fetched (luck n) op u).2 := by
          intro n op u
          have hn : { storage := (luck n).storage, outage := none } = luck n := by rw [← ha n]
          exact ⟨(luck n).storage, by rw [hn]⟩
        have hends : Ends (Steady sv fetched)
            (DriveSyncService.syncItem cfg id item tier folderId) s.store _ _ :=
          ends_run hact _ _
        rcases hrun : run (driveEffect sv fetched) luck
          (DriveSyncService.syncItem cfg id item tier folderId) s.store with ⟨o, store⟩
        rw [hrun] at h hends
        have hf := Option.isNone_iff_eq_none.mp hfresh
        obtain ⟨rfl, hs⟩ := DriveSyncService.syncItem_spec hf hends
        obtain rfl := Option.some.inj h
        exact .syncs id fetched luck listing limited item tier folderId items store hp hf hs
      · cases h
    · cases h
  | dieInItem id fetched luck operations => exact False.elim ha
  | nextPhase =>
    simp only [step] at h
    split at h
    · rename_i listing limited hp
      obtain rfl := Option.some.inj h
      exact .turnsToGone listing limited hp
    · rename_i listing limited hp
      obtain rfl := Option.some.inj h
      exact .turnsToPending listing limited hp
    · cases h
  | retireFile =>
    simp only [step] at h
    split at h
    · rename_i listing limited f files hp
      obtain rfl := Option.some.inj h
      exact .retires listing limited f files hp
    · cases h
  | reconcileFile =>
    simp only [step] at h
    split at h
    · rename_i listing limited f files hp
      obtain rfl := Option.some.inj h
      exact .reconciles listing limited f files hp
    · cases h
  | finish =>
    simp only [step] at h
    split at h
    · rename_i listing limited hp
      obtain rfl := Option.some.inj h
      exact .finishes listing limited hp
    · cases h
  | stage stage id luck operations =>
    obtain rfl := Option.some.inj h
    exact .works stage id luck operations _ (visits_after (fun n _ _ => ⟨luck n, rfl⟩) _ _ _)
  | classify id tier =>
    obtain ⟨store, hs, rfl⟩ := Option.map_eq_some_iff.mp h
    exact .classifies id tier store hs
  | restoreInApp id =>
    obtain ⟨store, hs, rfl⟩ := Option.map_eq_some_iff.mp h
    exact .restores id store hs
  | erase id =>
    obtain ⟨store, hs, rfl⟩ := Option.map_eq_some_iff.mp h
    exact .erases id store hs

end SyncState

namespace Listing

def of (entries : List Entry) (h : (entries.map fun e => e.1.fileId).Nodup) : Listing where
  found := entries.map fun e => (e.1.fileId, e)
  keys := by rwa [List.map_map]
  named := by
    intro e he
    obtain ⟨x, -, rfl⟩ := List.mem_map.mp he
    rfl

theorem listWatchedFiles_dict (c : DriveClient) (tiers : List (FolderId × Classification)) :
    ((DriveSyncService.listWatchedFiles c tiers).map Prod.fst).Nodup ∧
      ∀ e ∈ DriveSyncService.listWatchedFiles c tiers, e.2.1.fileId = e.1 := by
  have hentries : ∀ e ∈ DriveSyncService.listedEntries c tiers, e.2.1.fileId = e.1 := by
    intro e he
    obtain ⟨p, -, he⟩ := List.mem_flatMap.mp he
    obtain ⟨item, -, hitem⟩ := List.mem_filterMap.mp he
    split at hitem
    · cases hitem
    · obtain rfl := Option.some.inj hitem
      rfl
  have hfold : ∀ entries d : DriveSyncService.Found,
      (∀ e ∈ entries, e.2.1.fileId = e.1) → (d.map Prod.fst).Nodup →
      (∀ e ∈ d, e.2.1.fileId = e.1) →
      ((entries.foldl (keepStricter fun v => v.2.1) d).map Prod.fst).Nodup ∧
        ∀ e ∈ entries.foldl (keepStricter fun v => v.2.1) d, e.2.1.fileId = e.1 := by
    intro entries
    induction entries with
    | nil => exact fun d _ hd hn => ⟨hd, hn⟩
    | cons e entries ih =>
      intro d he hd hn
      have hput : ((Table.put d e.1 e.2).map Prod.fst).Nodup ∧
          ∀ x ∈ Table.put d e.1 e.2, x.2.1.fileId = x.1 := by
        refine ⟨Table.nodup_put hd _ _, fun x hx => ?_⟩
        rcases Table.mem_of_mem_put hx with hx | rfl
        · exact hn x hx
        · exact he e (by simp)
      have hone : ((keepStricter (fun v => v.2.1) d e).map Prod.fst).Nodup ∧
          ∀ x ∈ keepStricter (fun v => v.2.1) d e, x.2.1.fileId = x.1 := by
        unfold keepStricter
        split
        · exact hput
        · split
          · exact hput
          · exact ⟨hd, hn⟩
      exact ih _ (fun x hx => he x (by simp [hx])) hone.1 hone.2
  exact hfold _ [] hentries List.nodup_nil (by simp)

/-- What the watched folders hold is such a listing. -/
def ofDrive (c : DriveClient) (tiers : List (FolderId × Classification)) : Listing where
  found := DriveSyncService.listWatchedFiles c tiers
  keys := (listWatchedFiles_dict c tiers).1
  named := (listWatchedFiles_dict c tiers).2

end Listing

/-- A connector that takes every file of up to a thousand bytes. -/
def plainDrive : DriveConfig where
  maxBytes := 1000
  ownerOf _ := 7
  detectFormat _ := some "application/pdf"

/-- Services that tell contents apart and reject one that starts with a zero. -/
def tellingServices : Services :=
  { plainServices with
    validateDocument data _ :=
      { isValid := data.head? ≠ some 0
        sha256 := if data = [37] then "25" else if data = [38] then "26" else "e3b0"
        pageCount := some 1, rejectionReason := none } }

def memoFile (fileId : FileId) (edition : String) (size : Nat) : DriveFile where
  fileId
  name := "memo.pdf"
  mimeType := "application/pdf"
  modifiedTime := edition
  size := some size
  ownerEmail := none
  md5 := some edition

namespace SyncState

def start : SyncState where
  store := { world := World.empty, files := [], versions := fun _ => [] }
  pass := none

theorem start_fresh : start.Fresh := ⟨rfl, fun _ => rfl, rfl⟩

/-- The next file is synced, with all well. -/
def syncing (id : DocumentId) (data : Bytes) : SyncAction :=
  .syncItem id (.ok data) fun _ => .fine

def working (stage : JobStage) (id : DocumentId) : SyncAction :=
  .stage stage id (fun _ => .fine) 20

/-- All five stages, one after the other. -/
def pipeline (id : DocumentId) : List SyncAction :=
  [working .scan id, working .extract id, working .normalize id, working .chunk id,
    working .embed id]

/-- A full pass that retires and reconciles so many files, up to its end. -/
def fullPass (listing : Listing) (syncs : List SyncAction) (gone pending : Nat) :
    List SyncAction :=
  [.syncOnce listing none] ++ syncs ++ [.nextPhase] ++ List.replicate gone .retireFile ++
    [.nextPhase] ++ List.replicate pending .reconcileFile

end SyncState

end KnowledgeBase
