import KnowledgeBase.Documents
import KnowledgeBase.Search

/-! The watched folders of a Drive and the tiers they confer. The walk records a folder at
the depth at which it first meets it, and does not go below the bound from there. -/

namespace KnowledgeBase

abbrev FileId := String
abbrev FolderId := FileId

structure DriveFile where
  fileId : FileId
  name : String
  mimeType : String
  modifiedTime : String
  size : Option Nat
  ownerEmail : Option String
  md5 : Option String
  deriving DecidableEq, Repr

def folderMime : String := "application/vnd.google-apps.folder"

/-- The answers of `list_children`, in the order they come; the folders are finitely many. -/
structure DriveClient where
  listFolders : FolderId → List DriveFile
  listChildren : FolderId → List DriveFile
  folderIds : List FolderId
  closed : ∀ u, ∀ c ∈ listFolders u, c.fileId ∈ folderIds

namespace DriveClient

def subfolders (c : DriveClient) (u : FolderId) : List FolderId :=
  (c.listFolders u).map DriveFile.fileId

/-- The loop of `walk_folder_tree`, with as many turns as the fuel allows. -/
def walkLoop (c : DriveClient) (rootId : FolderId) (maxDepth fuel : Nat) :
    Option (List (FolderId × Nat)) :=
  Search.run maxDepth c.subfolders fuel (Search.start rootId)

def walkFolderTree (c : DriveClient) (rootId : FolderId) (maxDepth : Nat) :
    List (FolderId × Nat) :=
  (c.walkLoop rootId maxDepth (c.folderIds.length + 2)).getD []

end DriveClient

section KeepStricter

variable {κ β : Type*} [DecidableEq κ]

/-- `d[key] = value` where there is no value yet or one of a laxer tier. -/
def keepStricter (tierOf : β → Classification) (d : List (κ × β)) (e : κ × β) : List (κ × β) :=
  match Table.get d e.1 with
  | none => Table.put d e.1 e.2
  | some current =>
    if isStricter (some (tierOf e.2)) (some (tierOf current)) then Table.put d e.1 e.2 else d

end KeepStricter

namespace DriveSyncService

def foldersUnset : String :=
  "Neither GDRIVE_PUBLIC_FOLDER_ID nor GDRIVE_RESTRICTED_FOLDER_ID is set. Without a watched " ++
    "folder there is nothing to sync, and no way to decide a tier."

/-- The folders of one tree, each with the tier of its root. -/
def treeTiers (c : DriveClient) (maxDepth : Nat) (root : FolderId) (tier : Classification) :
    List (FolderId × Classification) :=
  if root = "" then [] else (c.walkFolderTree root maxDepth).map fun p => (p.1, tier)

def resolveFolderTiers (c : DriveClient) (maxDepth : Nat) (publicRoot restrictedRoot : FolderId) :
    Except String (List (FolderId × Classification)) :=
  if publicRoot = "" ∧ restrictedRoot = "" then .error foldersUnset
  else .ok <| (treeTiers c maxDepth publicRoot .public ++
    treeTiers c maxDepth restrictedRoot .restricted).foldl (keepStricter id) []

abbrev Found := List (FileId × (DriveFile × Classification × FolderId))

/-- The files of the watched folders one after the other, with tier and folder. -/
def listedEntries (c : DriveClient) (tiers : List (FolderId × Classification)) : Found :=
  tiers.flatMap fun p => (c.listChildren p.1).filterMap fun item =>
    if item.mimeType = folderMime then none else some (item.fileId, item, p.2, p.1)

def listWatchedFiles (c : DriveClient) (tiers : List (FolderId × Classification)) : Found :=
  (listedEntries c tiers).foldl (keepStricter fun v => v.2.1) []

end DriveSyncService

section KeepStricter

variable {κ β : Type*} [DecidableEq κ] {tierOf : β → Classification}

theorem isStricter_iff {a b : Classification} :
    isStricter (some a) (some b) = true ↔ a = .restricted ∧ b = .public := by
  cases a <;> cases b <;> decide

/-- The tier kept under a key is the strictest of those that came with it. -/
theorem keepStricter_tier (entries d : List (κ × β)) (k : κ) :
    ((Table.get (entries.foldl (keepStricter tierOf) d) k).map tierOf = some .restricted ↔
      (Table.get d k).map tierOf = some .restricted ∨
        ∃ e ∈ entries, e.1 = k ∧ tierOf e.2 = .restricted) ∧
    ((Table.get (entries.foldl (keepStricter tierOf) d) k).isSome = true ↔
      (Table.get d k).isSome = true ∨ ∃ e ∈ entries, e.1 = k) := by
  induction entries generalizing d with
  | nil => simp
  | cons e entries ih =>
    obtain ⟨ih₁, ih₂⟩ := ih (keepStricter tierOf d e)
    have hstep : ((Table.get (keepStricter tierOf d e) k).map tierOf = some .restricted ↔
        (Table.get d k).map tierOf = some .restricted ∨ e.1 = k ∧ tierOf e.2 = .restricted) ∧
      ((Table.get (keepStricter tierOf d e) k).isSome = true ↔
        (Table.get d k).isSome = true ∨ e.1 = k) := by
      unfold keepStricter
      cases hd : Table.get d e.1 with
      | none =>
        simp only [Table.get_put]
        by_cases hk : k = e.1
        · subst hk
          simp [hd]
        · simp [hk, Ne.symm hk]
      | some current =>
        simp only
        split
        · rename_i hs
          obtain ⟨hnew, hold⟩ := isStricter_iff.mp hs
          rw [Table.get_put]
          by_cases hk : k = e.1
          · subst hk
            simp [hd, hnew, hold]
          · simp [hk, Ne.symm hk]
        · rename_i hs
          by_cases hk : e.1 = k
          · subst hk
            have hlax : tierOf e.2 = .restricted → tierOf current = .restricted := by
              intro he
              cases hc : tierOf current with
              | restricted => rfl
              | «public» => exact absurd (isStricter_iff.mpr ⟨he, hc⟩) hs
            simp only [hd, Option.map_some, Option.some.injEq, Option.isSome_some, true_and,
              or_true, iff_self, and_true]
            exact ⟨Or.inl, fun h => h.elim (fun h => h) hlax⟩
          · simp [hk]
    rw [List.foldl_cons, ih₁, ih₂, hstep.1, hstep.2]
    simp only [List.exists_mem_cons_iff, or_assoc, and_self]

end KeepStricter

/-- A folder within so many levels of a root that is set. -/
def Watched (c : DriveClient) (maxDepth : Nat) (root v : FolderId) : Prop :=
  root ≠ "" ∧ Search.Within c.subfolders maxDepth root v

/-- The walk comes to an end and returns just the folders within the depth. -/
def WalkExact (c : DriveClient) (maxDepth : Nat) (root : FolderId) : Prop :=
  (∀ fuel, c.folderIds.length + 2 ≤ fuel →
    c.walkLoop root maxDepth fuel = some (c.walkFolderTree root maxDepth)) ∧
  ∀ v, v ∈ (c.walkFolderTree root maxDepth).map Prod.fst ↔
    Search.Within c.subfolders maxDepth root v

/-- A folder lists a file. -/
def Lists (c : DriveClient) (v : FolderId) (f : FileId) : Prop :=
  ∃ item ∈ c.listChildren v, item.mimeType ≠ folderMime ∧ item.fileId = f

def tierOf (found : DriveSyncService.Found) (f : FileId) : Option Classification :=
  (Table.get found f).map fun v => v.2.1

/-- The restricted tree gives its files the strict tier, the public one all its others,
and no file elsewhere is listed. -/
def TiersExact (c : DriveClient) (maxDepth : Nat) (publicRoot restrictedRoot : FolderId) : Prop :=
  ∀ tiers, DriveSyncService.resolveFolderTiers c maxDepth publicRoot restrictedRoot = .ok tiers →
    ∀ f, (tierOf (DriveSyncService.listWatchedFiles c tiers) f = some .restricted ↔
        ∃ v, Watched c maxDepth restrictedRoot v ∧ Lists c v f) ∧
      (tierOf (DriveSyncService.listWatchedFiles c tiers) f = some .public ↔
        (¬ ∃ v, Watched c maxDepth restrictedRoot v ∧ Lists c v f) ∧
          ∃ v, Watched c maxDepth publicRoot v ∧ Lists c v f)

/-- The walk meets a folder at the bound. -/
def MetAt (c : DriveClient) (maxDepth : Nat) (root w : FolderId) (depth : Nat) : Prop :=
  Table.get (c.walkFolderTree root maxDepth) w = some depth

/-- A folder that is first met at the bound though it is nearer has no subfolders but those
that also are in a folder met sooner. -/
def NeverCutShort (c : DriveClient) (maxDepth : Nat) (root : FolderId) : Prop :=
  ∀ w, MetAt c maxDepth root w maxDepth →
    (∃ n < maxDepth, Search.Steps c.subfolders root n w) → ∀ v ∈ c.subfolders w,
      v = root ∨ ∃ u n, MetAt c maxDepth root u n ∧ n < maxDepth ∧ v ∈ c.subfolders u

section Walk

variable (c : DriveClient) (maxDepth : Nat) (root : FolderId)

theorem walk_ends : (∀ fuel, c.folderIds.length + 2 ≤ fuel →
      c.walkLoop root maxDepth fuel = some (c.walkFolderTree root maxDepth)) ∧
    Search.Inv c.subfolders maxDepth root (root :: c.folderIds) []
      { depths := c.walkFolderTree root maxDepth, frontier := [] } := by
  have hnodes : ∀ u, ∀ v ∈ c.subfolders u, v ∈ root :: c.folderIds := by
    intro u v hv
    obtain ⟨item, hi, rfl⟩ := List.mem_map.mp hv
    exact List.mem_cons_of_mem _ (c.closed u item hi)
  have hleft : Search.left (root :: c.folderIds) (Search.start root) < c.folderIds.length + 2 := by
    simp [Search.left, Search.start]
  obtain ⟨depths, hrun, hinv⟩ := Search.run_ends hnodes
    (Search.inv_start List.mem_cons_self) hleft
  have hwalk : c.walkFolderTree root maxDepth = depths := by
    rw [DriveClient.walkFolderTree, DriveClient.walkLoop, hrun]
    rfl
  rw [hwalk]
  exact ⟨fun fuel hfuel => Search.run_mono hrun hfuel, hinv⟩

theorem walk_exact_iff : WalkExact c maxDepth root ↔ NeverCutShort c maxDepth root := by
  obtain ⟨hends, hinv⟩ := walk_ends c maxDepth root
  have hiff := hinv.exact_iff
  simp only [Table.get_isSome_iff] at hiff
  exact ⟨fun h => hiff.mp h.2, fun h => ⟨hends, hiff.mpr h⟩⟩

/-- Where all ways to a folder are equally long, as in a tree, the walk misses none. -/
theorem walk_exact_of_levels
    (hlevel : ∀ v m n, Search.Steps c.subfolders root m v → Search.Steps c.subfolders root n v →
      m = n) : WalkExact c maxDepth root := by
  refine (walk_exact_iff c maxDepth root).mpr fun w hw ⟨n, hn, hsteps⟩ => ?_
  have hmet := ((walk_ends c maxDepth root).2.path w maxDepth hw).2
  exact absurd (hlevel w n maxDepth hsteps hmet) (Nat.ne_of_lt hn)

end Walk

section Tiers

variable {c : DriveClient} {maxDepth : Nat} {publicRoot restrictedRoot : FolderId}

theorem mem_treeTiers {root v : FolderId} {tier t : Classification}
    (h : root ≠ "" → WalkExact c maxDepth root) :
    (v, t) ∈ DriveSyncService.treeTiers c maxDepth root tier ↔
      t = tier ∧ Watched c maxDepth root v := by
  unfold DriveSyncService.treeTiers Watched
  split
  · rename_i hroot
    simp [hroot]
  · rename_i hroot
    rw [← (h hroot).2 v]
    simp only [List.mem_map, Prod.mk.injEq]
    constructor
    · rintro ⟨p, hp, rfl, rfl⟩
      exact ⟨rfl, hroot, p, hp, rfl⟩
    · rintro ⟨rfl, -, p, hp, rfl⟩
      exact ⟨p, hp, rfl, rfl⟩

theorem nodup_keepStricter {κ β : Type*} [DecidableEq κ] {tierOf : β → Classification}
    (entries : List (κ × β)) {d : List (κ × β)} (h : (d.map Prod.fst).Nodup) :
    ((entries.foldl (keepStricter tierOf) d).map Prod.fst).Nodup := by
  induction entries generalizing d with
  | nil => exact h
  | cons e entries ih =>
    refine ih ?_
    unfold keepStricter
    split
    · exact Table.nodup_put h _ _
    · split
      · exact Table.nodup_put h _ _
      · exact h

/-- The strict tier where it is among the entries, else the other where that is. -/
theorem tier_kept {κ β : Type*} [DecidableEq κ] {tierOf : β → Classification}
    (entries : List (κ × β)) (k : κ) :
    ((Table.get (entries.foldl (keepStricter tierOf) []) k).map tierOf = some .restricted ↔
      ∃ e ∈ entries, e.1 = k ∧ tierOf e.2 = .restricted) ∧
    ((Table.get (entries.foldl (keepStricter tierOf) []) k).map tierOf = some .public ↔
      (¬ ∃ e ∈ entries, e.1 = k ∧ tierOf e.2 = .restricted) ∧
        ∃ e ∈ entries, e.1 = k ∧ tierOf e.2 = .public) := by
  obtain ⟨hstrict, hsome⟩ := @keepStricter_tier _ _ _ tierOf entries [] k
  have hnil : Table.get ([] : List (κ × β)) k = none := rfl
  rw [hnil] at hstrict hsome
  simp only [Option.map_none, reduceCtorEq, false_or, Option.isSome_none, Bool.false_eq_true]
    at hstrict hsome
  refine ⟨hstrict, ?_⟩
  rw [← hstrict]
  cases hg : Table.get (entries.foldl (keepStricter tierOf) []) k with
  | none =>
    rw [hg] at hsome
    simp only [Option.map_none, reduceCtorEq, not_false_eq_true, true_and, false_iff]
    rintro ⟨e, he, hk, -⟩
    cases hsome.mpr ⟨e, he, hk⟩
  | some v =>
    rw [hg] at hsome hstrict
    rw [Option.map_some] at hstrict ⊢
    cases hv : tierOf v with
    | restricted => simp
    | «public» =>
      rw [hv] at hstrict
      simp only [Option.some.injEq, reduceCtorEq, not_false_eq_true, true_and, true_iff]
      obtain ⟨e, he, hk⟩ := hsome.mp rfl
      refine ⟨e, he, hk, ?_⟩
      cases ht : tierOf e.2 with
      | «public» => rfl
      | restricted => cases hstrict.mpr ⟨e, he, hk, ht⟩

/-- Both walks are exact, where there is a root. -/
def WalksExact (c : DriveClient) (maxDepth : Nat) (publicRoot restrictedRoot : FolderId) : Prop :=
  ∀ root ∈ [publicRoot, restrictedRoot], root ≠ "" → WalkExact c maxDepth root

theorem mem_tiers (hw : WalksExact c maxDepth publicRoot restrictedRoot)
    {tiers : List (FolderId × Classification)}
    (h : DriveSyncService.resolveFolderTiers c maxDepth publicRoot restrictedRoot = .ok tiers)
    (v : FolderId) :
    ((v, .restricted) ∈ tiers ↔ Watched c maxDepth restrictedRoot v) ∧
      ((v, .public) ∈ tiers ↔
        ¬ Watched c maxDepth restrictedRoot v ∧ Watched c maxDepth publicRoot v) := by
  unfold DriveSyncService.resolveFolderTiers at h
  split at h
  · cases h
  · obtain rfl := Except.ok.inj h
    have hmem : ∀ t, (v, t) ∈ DriveSyncService.treeTiers c maxDepth publicRoot .public ++
        DriveSyncService.treeTiers c maxDepth restrictedRoot .restricted ↔
        t = .public ∧ Watched c maxDepth publicRoot v ∨
          t = .restricted ∧ Watched c maxDepth restrictedRoot v := by
      intro t
      rw [List.mem_append, mem_treeTiers (hw publicRoot (by simp)),
        mem_treeTiers (hw restrictedRoot (by simp))]
    have hpair : ∀ t, (∃ e ∈ DriveSyncService.treeTiers c maxDepth publicRoot .public ++
        DriveSyncService.treeTiers c maxDepth restrictedRoot .restricted, e.1 = v ∧ id e.2 = t) ↔
        t = .public ∧ Watched c maxDepth publicRoot v ∨
          t = .restricted ∧ Watched c maxDepth restrictedRoot v := by
      intro t
      rw [← hmem t]
      constructor
      · rintro ⟨⟨a, b⟩, he, rfl, rfl⟩
        exact he
      · exact fun he => ⟨(v, t), he, rfl, rfl⟩
    obtain ⟨hstrict, hlax⟩ := @tier_kept _ _ _ id
      (DriveSyncService.treeTiers c maxDepth publicRoot .public ++
        DriveSyncService.treeTiers c maxDepth restrictedRoot .restricted) v
    rw [Option.map_id, id, hpair] at hstrict
    rw [Option.map_id, id, hpair, hpair] at hlax
    have hnil : (([] : List (FolderId × Classification)).map Prod.fst).Nodup := List.nodup_nil
    rw [Table.mem_iff_get (nodup_keepStricter _ hnil),
      Table.mem_iff_get (nodup_keepStricter _ hnil), hstrict, hlax]
    simp

theorem mem_listedEntries {tiers : List (FolderId × Classification)} {f : FileId}
    {t : Classification} :
    (∃ e ∈ DriveSyncService.listedEntries c tiers, e.1 = f ∧ e.2.2.1 = t) ↔
      ∃ v, (v, t) ∈ tiers ∧ Lists c v f := by
  unfold DriveSyncService.listedEntries Lists
  constructor
  · rintro ⟨e, he, rfl, rfl⟩
    obtain ⟨p, hp, hin⟩ := List.mem_flatMap.mp he
    obtain ⟨item, hitem, hsome⟩ := List.mem_filterMap.mp hin
    split at hsome
    · cases hsome
    · rename_i hmime
      obtain rfl := Option.some.inj hsome
      exact ⟨p.1, hp, item, hitem, hmime, rfl⟩
  · rintro ⟨v, hv, item, hitem, hmime, rfl⟩
    refine ⟨(item.fileId, item, t, v), List.mem_flatMap.mpr ⟨(v, t), hv, ?_⟩, rfl, rfl⟩
    exact List.mem_filterMap.mpr ⟨item, hitem, by rw [if_neg hmime]⟩

theorem tiers_exact (hw : WalksExact c maxDepth publicRoot restrictedRoot) :
    TiersExact c maxDepth publicRoot restrictedRoot := by
  intro tiers h f
  obtain ⟨hstrict, hlax⟩ := @tier_kept _ _ _ (fun v : DriveFile × Classification × FolderId => v.2.1)
    (DriveSyncService.listedEntries c tiers) f
  rw [mem_listedEntries] at hstrict hlax
  rw [mem_listedEntries] at hlax
  have hin := mem_tiers hw h
  simp only [(hin _).1, (hin _).2] at hstrict hlax
  refine ⟨hstrict, hlax.trans (and_congr_right fun hno => ?_)⟩
  constructor
  · rintro ⟨v, ⟨-, hv⟩, hl⟩
    exact ⟨v, hv, hl⟩
  · rintro ⟨v, hv, hl⟩
    exact ⟨v, ⟨fun hr => hno ⟨v, hr, hl⟩, hv⟩, hl⟩

/-- One folder in two others: deep in the first, which the walk enters first, and not so
deep in the second. -/
def sharedFolders : FolderId → List FolderId
  | "root" => ["near", "far"]
  | "near" => ["shared"]
  | "far" => ["farther"]
  | "farther" => ["shared"]
  | "shared" => ["below"]
  | _ => []

def folderItem (id : FolderId) : DriveFile where
  fileId := id
  name := id
  mimeType := folderMime
  modifiedTime := "2026-01-01"
  size := none
  ownerEmail := none
  md5 := none

def sharedDrive : DriveClient where
  listFolders u := (sharedFolders u).map folderItem
  listChildren u := (sharedFolders u).map folderItem
  folderIds := ["near", "far", "shared", "farther", "below"]
  closed u c hc := by
    obtain ⟨v, hv, rfl⟩ := List.mem_map.mp hc
    show v ∈ _
    unfold sharedFolders at hv
    split at hv <;> simp only [List.mem_cons, List.not_mem_nil, or_false] at hv ⊢ <;> tauto

end Tiers

end KnowledgeBase
