import ParadoxCode.Workspace.Index

/-!
# The maintained index and a rebuild

A resolved bucket is determined by the ordinals that it holds of each file, in order
(`resolved_congr`). Both the rebuild and every resolved change leave the ordinals that the shards
give (`Follows`), so that they leave one map.
-/

namespace ParadoxCode.Workspace

open Engine Engine.Store Format NatMap StableSort

/-! ## Resolved buckets -/

section Bucket

variable (priorities : Priorities) (values : List DefinitionPointer)

/-- The highest priority in a bucket. -/
def highestOf : Option Nat := (values.map fun pointer => priorityOf priorities pointer.fileId).max?

/-- Whether the pointers of a file are active. -/
def isActive (fileId : Nat) : Bool :=
  some (priorityOf priorities fileId) == highestOf priorities values

/-- A pointer with its state. -/
def activate (pointer : DefinitionPointer) : DefinitionPointer :=
  { pointer with active := isActive priorities values pointer.fileId }

/-- A bucket whose pointers all have a definition, when it is resolved. -/
def resolved : List DefinitionPointer := sortBucket (values.map (activate priorities values))

/-- The ordinals of a file in a bucket. -/
def ordinals (fileId : Nat) : List Nat :=
  (values.filter fun pointer => pointer.fileId = fileId).map DefinitionPointer.ordinal

end Bucket

variable {priorities : Priorities} {shards : Shards} {values values' : List DefinitionPointer}

theorem resolvePointerBucket_eq
    (h : ∀ pointer ∈ values, (definitionAt shards pointer).isSome = true) :
    resolvePointerBucket shards priorities values = resolved priorities values := by
  match values, h with
  | [], _ => rfl
  | [pointer], h =>
    unfold resolvePointerBucket
    dsimp only
    rw [if_pos (h pointer List.mem_cons_self)]
    unfold resolved activate isActive highestOf
    simp [sortBucket, sortByKey]
  | first :: second :: values, h =>
    unfold resolvePointerBucket resolved
    dsimp only
    obtain ⟨highest, hhighest⟩ : ∃ highest,
        highestOf priorities (first :: second :: values) = some highest := ⟨_, List.max?_cons'⟩
    have hmax := hhighest
    unfold highestOf at hmax
    rw [hmax]
    dsimp only
    refine congrArg sortBucket (List.map_congr_left fun pointer hpointer => ?_)
    rw [if_pos (h pointer hpointer)]
    unfold activate isActive
    rw [hhighest]
    rfl

/-! ## What determines a resolved bucket -/

theorem filter_eq_map_ordinals (fileId : Nat) (active : Nat → Bool) :
    ((values.filter fun pointer => pointer.fileId = fileId).map fun pointer =>
      { pointer with active := active pointer.fileId }) =
      (ordinals values fileId).map fun ordinal => ⟨fileId, ordinal, active fileId⟩ := by
  unfold ordinals
  rw [List.map_map]
  refine List.map_congr_left fun pointer hpointer => ?_
  have hfile : pointer.fileId = fileId := by simpa using (List.mem_filter.mp hpointer).2
  simp [hfile]

theorem mem_files_iff (fileId : Nat) :
    (∃ pointer ∈ values, pointer.fileId = fileId) ↔ ordinals values fileId ≠ [] := by
  unfold ordinals
  rw [Ne, List.map_eq_nil_iff, List.filter_eq_nil_iff]
  simp

theorem highestOf_congr (h : ∀ fileId, ordinals values fileId = ordinals values' fileId) :
    highestOf priorities values = highestOf priorities values' := by
  have hmem : ∀ n, n ∈ values.map (fun pointer => priorityOf priorities pointer.fileId) ↔
      n ∈ values'.map fun pointer => priorityOf priorities pointer.fileId := by
    have hsub : ∀ {as bs : List DefinitionPointer},
      (∀ fileId, ordinals as fileId = ordinals bs fileId) →
        ∀ n, n ∈ as.map (fun pointer => priorityOf priorities pointer.fileId) →
          n ∈ bs.map fun pointer => priorityOf priorities pointer.fileId := by
      intro as bs hsame n hn
      obtain ⟨pointer, hpointer, rfl⟩ := List.mem_map.mp hn
      have hfile := (mem_files_iff pointer.fileId).mp ⟨pointer, hpointer, rfl⟩
      rw [hsame] at hfile
      obtain ⟨other, hother, heq⟩ := (mem_files_iff pointer.fileId).mpr hfile
      exact List.mem_map.mpr ⟨other, hother, by rw [heq]⟩
    exact fun n => ⟨hsub h n, hsub (fun fileId => (h fileId).symm) n⟩
  unfold highestOf
  cases hmax : (values'.map fun pointer => priorityOf priorities pointer.fileId).max? with
  | none =>
    rw [List.max?_eq_none_iff] at hmax ⊢
    refine List.eq_nil_iff_forall_not_mem.mpr fun n hn => ?_
    rw [hmem, hmax] at hn
    cases hn
  | some highest =>
    rw [List.max?_eq_some_iff] at hmax ⊢
    exact ⟨(hmem highest).mpr hmax.1, fun n hn => hmax.2 n ((hmem n).mp hn)⟩

theorem filter_sortKey_activate (priorities : Priorities) (values : List DefinitionPointer)
    (inactive : Bool) (fileId : Nat) :
    ((values.map (activate priorities values)).filter fun pointer =>
      pointer.sortKey = toLex (inactive, fileId)) =
      if inactive = !isActive priorities values fileId then
        (ordinals values fileId).map fun ordinal =>
          ⟨fileId, ordinal, isActive priorities values fileId⟩
      else [] := by
  rw [List.filter_map]
  have hkey : ∀ pointer : DefinitionPointer,
      (activate priorities values pointer).sortKey = toLex (inactive, fileId) ↔
        pointer.fileId = fileId ∧ inactive = !isActive priorities values fileId := by
    intro pointer
    unfold DefinitionPointer.sortKey activate
    rw [toLex_inj, Prod.mk.injEq]
    constructor
    · rintro ⟨rfl, rfl⟩
      exact ⟨rfl, rfl⟩
    · rintro ⟨rfl, rfl⟩
      exact ⟨rfl, rfl⟩
  have hfilter :
    ((fun pointer : DefinitionPointer => decide (pointer.sortKey = toLex (inactive, fileId))) ∘
      activate priorities values) = fun pointer =>
        decide (pointer.fileId = fileId ∧ inactive = !isActive priorities values fileId) := by
    funext pointer
    exact decide_eq_decide.mpr (hkey pointer)
  rw [hfilter]
  split_ifs with hactive
  · simp only [hactive, and_true]
    exact filter_eq_map_ordinals fileId (isActive priorities values)
  · simp only [hactive, and_false, decide_false, List.filter_false, List.map_nil]

/-- A resolved bucket is determined by the ordinals of each file. -/
theorem resolved_congr (h : ∀ fileId, ordinals values fileId = ordinals values' fileId) :
    resolved priorities values = resolved priorities values' := by
  refine sortByKey_congr fun k => ?_
  obtain ⟨inactive, fileId⟩ := k
  have hactive : isActive priorities values fileId = isActive priorities values' fileId := by
    unfold isActive
    rw [highestOf_congr h]
  have hleft := filter_sortKey_activate priorities values inactive fileId
  have hright := filter_sortKey_activate priorities values' inactive fileId
  rw [hactive, h] at hleft
  exact hleft.trans hright.symm

theorem ordinals_sortBucket (fileId : Nat) :
    ordinals (sortBucket values) fileId =
      (sortBucket (values.filter fun pointer => pointer.fileId = fileId)).map
        DefinitionPointer.ordinal := by
  unfold ordinals sortBucket
  rw [filter_sortByKey]

theorem ordinals_resolved (fileId : Nat) :
    ordinals (resolved priorities values) fileId = ordinals values fileId := by
  unfold resolved
  rw [ordinals_sortBucket, List.filter_map]
  have hfilter : ((fun pointer : DefinitionPointer => decide (pointer.fileId = fileId)) ∘
      activate priorities values) = fun pointer => decide (pointer.fileId = fileId) := rfl
  rw [hfilter]
  -- the pointers of one file have one key
  have hsorted : ((values.filter fun pointer => pointer.fileId = fileId).map
      (activate priorities values)).Pairwise fun left right => left.sortKey ≤ right.sortKey := by
    refine List.pairwise_map.mpr (List.pairwise_of_forall_mem_list fun left hleft right hright =>
      ?_)
    have hleft : left.fileId = fileId := by simpa using (List.mem_filter.mp hleft).2
    have hright : right.fileId = fileId := by simpa using (List.mem_filter.mp hright).2
    unfold DefinitionPointer.sortKey activate
    rw [hleft, hright]
  unfold sortBucket
  rw [sortByKey_eq_self hsorted, List.map_map]
  rfl

/-! ## What the shards give -/

/-- The pointers of a shard under a key. -/
def ownPointers (fileId : Nat) (shard : FileIndexShard) (key : Str × Str) :
    List DefinitionPointer :=
  ((pointersOf fileId shard).filter fun p => p.1 = key).map Prod.snd

/-- The ordinals of a file under a key. -/
def expected (shards : Shards) (key : Str × Str) (fileId : Nat) : List Nat :=
  (shards[fileId]?).elim [] fun shard =>
    (sortBucket (ownPointers fileId shard key)).map DefinitionPointer.ordinal

/-- A lookup map that holds, resolved, what the shards give. -/
structure Follows (priorities : Priorities) (shards : Shards)
    (definitions : Definitions) : Prop where
  full : definitions.Full
  resolved : ∀ key, resolved priorities (definitions.bucket key) = definitions.bucket key
  ordinals : ∀ key fileId, ordinals (definitions.bucket key) fileId = expected shards key fileId

/-- There is one such map. -/
theorem Follows.eq {definitions definitions' : Definitions}
    (h : Follows priorities shards definitions)
    (h' : Follows priorities shards definitions') : definitions = definitions' := by
  refine h.full.ext h'.full fun key => ?_
  rw [← h.resolved, ← h'.resolved]
  exact resolved_congr fun fileId => by rw [h.ordinals, h'.ordinals]

theorem Follows.sorted {definitions : Definitions} (h : Follows priorities shards definitions)
    (key : Str × Str) : sortBucket (definitions.bucket key) = definitions.bucket key := by
  rw [← h.resolved]
  exact sortByKey_eq_self (pairwise_sortByKey DefinitionPointer.sortKey _)

variable {key : Str × Str}

theorem mem_ownPointers {fileId : Nat} {shard : FileIndexShard}
    {pointer : DefinitionPointer} (h : pointer ∈ ownPointers fileId shard key) :
    pointer.fileId = fileId ∧ pointer.ordinal < shard.definitions.length ∧
      key ∈ shard.definitions.map definitionKey := by
  obtain ⟨p, hp, rfl⟩ := List.mem_map.mp h
  obtain ⟨hp, hkey⟩ := List.mem_filter.mp hp
  obtain ⟨item, hitem, rfl⟩ := List.mem_map.mp hp
  have hat := List.mk_mem_zipIdx_iff_getElem?.mp (show (item.1, item.2) ∈ _ from hitem)
  refine ⟨rfl, (List.getElem?_eq_some_iff.mp hat).1, ?_⟩
  rw [← of_decide_eq_true hkey]
  exact List.mem_map.mpr ⟨item.1, List.mem_of_getElem? hat, rfl⟩

/-- A bucket with ordinals that the shards give has a definition for each pointer. -/
theorem valid_of_ordinals (key : Str × Str)
    (h : ∀ fileId, ∀ ordinal ∈ ordinals values fileId, ordinal ∈ expected shards key fileId) :
    ∀ pointer ∈ values, (definitionAt shards pointer).isSome = true := by
  intro pointer hpointer
  have hordinal : pointer.ordinal ∈ ordinals values pointer.fileId :=
    List.mem_map.mpr ⟨pointer, List.mem_filter.mpr ⟨hpointer, by simp⟩, rfl⟩
  have hexpected := h _ _ hordinal
  unfold expected at hexpected
  unfold definitionAt
  cases hshard : shards[pointer.fileId]? with
  | none => rw [hshard] at hexpected; cases hexpected
  | some shard =>
    rw [hshard] at hexpected
    obtain ⟨own, hown, heq⟩ := List.mem_map.mp hexpected
    have hlt := (mem_ownPointers ((perm_sortByKey _ _).mem_iff.mp hown)).2.1
    rw [heq] at hlt
    show (shard.definitions[pointer.ordinal]?).isSome = true
    rw [List.getElem?_eq_getElem hlt]
    rfl

theorem expected_eq_nil {fileId : Nat}
    (h : ∀ shard, shards[fileId]? = some shard → key ∉ shard.definitions.map definitionKey) :
    expected shards key fileId = [] := by
  unfold expected
  cases hshard : shards[fileId]? with
  | none => rfl
  | some shard =>
    have hnil : ownPointers fileId shard key = [] :=
      List.eq_nil_iff_forall_not_mem.mpr fun pointer hpointer =>
        h shard hshard (mem_ownPointers hpointer).2.2
    rw [Option.elim_some, hnil]
    rfl

/-- Buckets that hold what the shards give follow them once they are resolved. -/
theorem follows_of_buckets {definitions : Definitions} (hfull : definitions.Full)
    (h : ∀ key, ∃ values, definitions.bucket key = resolved priorities values ∧
      ∀ fileId, ordinals values fileId = expected shards key fileId) :
    Follows priorities shards definitions := by
  refine ⟨hfull, fun key => ?_, fun key fileId => ?_⟩
  · obtain ⟨values, hbucket, -⟩ := h key
    rw [hbucket]
    exact resolved_congr fun fileId => ordinals_resolved fileId
  · obtain ⟨values, hbucket, hordinals⟩ := h key
    rw [hbucket, ordinals_resolved, hordinals]

/-! ## A rebuild -/

/-- All pointers under a key, file by file. -/
def rawPointers (shards : Shards) (key : Str × Str) : List DefinitionPointer :=
  shards.toList.flatMap fun p => ownPointers p.1 p.2 key

theorem ordinals_rawPointers (key : Str × Str) (fileId : Nat) :
    ordinals (sortBucket (rawPointers shards key)) fileId = expected shards key fileId := by
  have hown : ∀ p ∈ shards.toList, ((ownPointers p.1 p.2 key).filter fun pointer =>
      pointer.fileId = fileId) = if p.1 = fileId then ownPointers p.1 p.2 key else [] := by
    intro p _
    split_ifs with hp
    · exact List.filter_eq_self.mpr fun pointer hpointer => by
        simpa using (mem_ownPointers hpointer).1.trans hp
    · exact List.filter_eq_nil_iff.mpr fun pointer hpointer => by
        simpa [(mem_ownPointers hpointer).1] using hp
  have hfilter : ((rawPointers shards key).filter fun pointer => pointer.fileId = fileId) =
      (shards[fileId]?).elim [] fun shard => ownPointers fileId shard key := by
    unfold rawPointers
    rw [List.filter_flatMap, List.flatMap_congr hown]
    exact flatMap_key shards fileId fun p => ownPointers p.1 p.2 key
  rw [ordinals_sortBucket, hfilter]
  unfold expected
  cases shards[fileId]? with
  | none => rfl
  | some shard => rfl

theorem bucket_pushFiles (files : List (Nat × FileIndexShard)) :
    ∀ (definitions : Definitions) (key : Str × Str),
      (files.foldl (fun definitions p => pushPointers definitions (pointersOf p.1 p.2))
        definitions).bucket key =
        definitions.bucket key ++ files.flatMap fun p => ownPointers p.1 p.2 key := by
  induction files with
  | nil => intro definitions key; simp
  | cons p files ih =>
    intro definitions key
    rw [List.foldl_cons, ih, pushPointers, Buckets.bucket_foldl_push, List.flatMap_cons,
      List.append_assoc]
    rfl

theorem full_pushFiles (files : List (Nat × FileIndexShard)) :
    ∀ {definitions : Definitions}, definitions.Full →
      (files.foldl (fun definitions p => pushPointers definitions (pointersOf p.1 p.2))
        definitions).Full := by
  induction files with
  | nil => exact fun h => h
  | cons p files ih => exact fun h => ih (h.foldl_push (pointersOf p.1 p.2))

theorem sortBucket_eq_nil {values : List DefinitionPointer} (h : sortBucket values = []) :
    values = [] :=
  List.perm_nil.mp (h ▸ (perm_sortByKey DefinitionPointer.sortKey values).symm)

theorem resolvePointerBucket_eq_nil (shards : Shards) (priorities : Priorities)
    (values : List DefinitionPointer) (h : resolvePointerBucket shards priorities values = []) :
    values = [] := by
  unfold resolvePointerBucket at h
  split at h
  · split_ifs at h
  · split at h
    · exact h
    · exact List.map_eq_nil_iff.mp (sortBucket_eq_nil h)

/-- A rebuilt index follows its shards. -/
theorem follows_rebuilt (index : WorkspaceIndex) (priorities : Priorities) :
    Follows priorities index.shards
      (index.rebuildMaps.resolvePriorities priorities).definitions := by
  have hfull : index.rebuildMaps.definitions.Full :=
    (full_pushFiles index.shards.toList Buckets.full_empty).mapLists fun _ => sortBucket_eq_nil
  have hbucket : ∀ key, index.rebuildMaps.definitions.bucket key =
      sortBucket (rawPointers index.shards key) := by
    intro key
    show Buckets.bucket (Buckets.mapLists _ sortBucket) key = _
    rw [Buckets.bucket_mapLists _ _ rfl, bucket_pushFiles, Buckets.bucket_empty]
    rfl
  refine follows_of_buckets (hfull.mapLists (resolvePointerBucket_eq_nil _ _)) fun key =>
    ⟨sortBucket (rawPointers index.shards key), ?_, ordinals_rawPointers key⟩
  show Buckets.bucket (Buckets.mapLists _ (resolvePointerBucket index.shards priorities)) key = _
  rw [Buckets.bucket_mapLists _ _ rfl, hbucket]
  exact resolvePointerBucket_eq (valid_of_ordinals key fun fileId ordinal h =>
    ordinals_rawPointers key fileId ▸ h)

/-! ## Changes -/

theorem nodup_sortDedup (keys : List (Str × Str)) : (sortDedup keys).Nodup := List.nodup_dedup _

theorem mem_sortDedup {keys : List (Str × Str)} : key ∈ sortDedup keys ↔ key ∈ keys := by
  unfold sortDedup
  rw [List.mem_dedup]
  exact (perm_sortByKey _ _).mem_iff

/-- Updates of some buckets. -/
theorem bucket_foldl_update (definitions : Definitions) {keys : List (Str × Str)}
    (hkeys : keys.Nodup)
    {f : List DefinitionPointer → List DefinitionPointer} (hf : f [] = []) (key : Str × Str) :
    (key ∈ keys → (keys.foldl (fun definitions key => definitions.update key f) definitions).bucket
      key =
      f (definitions.bucket key)) ∧
    (key ∉ keys → (keys.foldl (fun definitions key => definitions.update key f) definitions).bucket
      key =
      definitions.bucket key) :=
  Buckets.bucket_foldl (fun t key key' => Buckets.bucket_update t key key' hf) hkeys definitions key

theorem expected_erase (shards : Shards) (key : Str × Str) (removed fileId : Nat) :
    expected (shards.erase removed) key fileId =
      if removed = fileId then [] else expected shards key fileId := by
  unfold expected
  rw [Std.ExtTreeMap.getElem?_erase]
  simp only [Nat.compare_eq_eq]
  split_ifs <;> rfl

theorem expected_insert (shards : Shards) (shard : FileIndexShard) (key : Str × Str)
    (changed fileId : Nat) :
    expected (shards.insert changed shard) key fileId =
      if changed = fileId then (sortBucket (ownPointers fileId shard key)).map
        DefinitionPointer.ordinal
      else expected shards key fileId := by
  unfold expected
  rw [getElem?_insert]
  split_ifs <;> rfl

theorem filter_ne_file (removed fileId : Nat) :
    ((values.filter fun pointer => pointer.fileId != removed).filter fun pointer =>
      pointer.fileId = fileId) =
      if removed = fileId then [] else values.filter fun pointer => pointer.fileId = fileId := by
  rw [List.filter_filter]
  split_ifs with h
  · exact List.filter_eq_nil_iff.mpr fun pointer _ => by simp [h]
  · refine List.filter_congr fun pointer _ => ?_
    by_cases hfile : pointer.fileId = fileId
    · simp [hfile, Ne.symm h]
    · simp [hfile]

theorem ordinals_filter_ne (removed fileId : Nat) :
    ordinals (values.filter fun pointer => pointer.fileId != removed) fileId =
      if removed = fileId then [] else ordinals values fileId := by
  unfold ordinals
  rw [filter_ne_file]
  split_ifs <;> rfl

/-- What the removal of a file's entries leaves. -/
structure Removed (index : WorkspaceIndex) (fileId : Nat) (index' : WorkspaceIndex)
    (affected : List (Str × Str)) : Prop where
  shards : index'.shards = index.shards.erase fileId
  flagWrites : index'.flagWrites = index.flagWrites
  full : index'.definitions.Full
  buckets : ∀ key, index'.definitions.bucket key =
    (index.definitions.bucket key).filter fun pointer => pointer.fileId != fileId
  nodup : affected.Nodup
  affected : ∀ key, key ∉ affected → expected index.shards key fileId = []

variable {index : WorkspaceIndex}

theorem filter_eq_self_of_expected {fileId : Nat}
    (h : Follows priorities index.shards index.definitions)
    (hnil : expected index.shards key fileId = []) :
    ((index.definitions.bucket key).filter fun pointer => pointer.fileId != fileId) =
      index.definitions.bucket key := by
  refine List.filter_eq_self.mpr fun pointer hpointer => ?_
  by_contra hfile
  have hne := (mem_files_iff fileId).mp ⟨pointer, hpointer, by simpa using hfile⟩
  rw [h.ordinals] at hne
  exact hne hnil

theorem removeShardEntries_removed
    (h : Follows priorities index.shards index.definitions) (fileId : Nat) :
    Removed index fileId (index.removeShardEntries fileId).1
      (index.removeShardEntries fileId).2 := by
  have herase : index.shards[fileId]? = none → index.shards = index.shards.erase fileId := by
    intro hnone
    apply Std.ExtTreeMap.ext_getElem?
    intro k
    rw [Std.ExtTreeMap.getElem?_erase]
    split_ifs with hk
    · rw [← Nat.compare_eq_eq.mp hk, hnone]
    · rfl
  unfold WorkspaceIndex.removeShardEntries
  cases hshard : index.shards[fileId]? with
  | none =>
    have hnil : ∀ key, expected index.shards key fileId = [] := fun key =>
      expected_eq_nil fun shard hsome => by rw [hshard] at hsome; cases hsome
    exact
      { shards := herase hshard
        flagWrites := rfl
        full := h.full
        buckets := fun key => (filter_eq_self_of_expected h (hnil key)).symm
        nodup := List.nodup_nil
        affected := fun key _ => hnil key }
  | some previous =>
    dsimp only
    have hnil : ∀ key, key ∉ sortDedup (previous.definitions.map definitionKey) →
        expected index.shards key fileId = [] := by
      intro key hkey
      refine expected_eq_nil fun shard hsome hin => hkey (mem_sortDedup.mpr ?_)
      rw [hshard] at hsome
      exact Option.some.inj hsome ▸ hin
    refine
      { shards := rfl
        flagWrites := rfl
        full := Buckets.Full.foldl (fun t key ht => ht.retain key _) _ h.full
        buckets := fun key => ?_
        nodup := nodup_sortDedup _
        affected := hnil }
    obtain ⟨hin, hout⟩ := Buckets.bucket_foldl
      (fun t key key' => Buckets.bucket_retain t key key' fun pointer => pointer.fileId != fileId)
      (nodup_sortDedup (previous.definitions.map definitionKey)) index.definitions key
    by_cases hkey : key ∈ sortDedup (previous.definitions.map definitionKey)
    · exact hin hkey
    · exact (hout hkey).trans (filter_eq_self_of_expected h (hnil key hkey)).symm

/-- A resolved removal keeps the map in step. -/
theorem follows_removeShardResolved
    (h : Follows priorities index.shards index.definitions) (fileId : Nat) :
    (index.removeShardResolved fileId priorities).shards = index.shards.erase fileId ∧
      Follows priorities (index.shards.erase fileId)
        (index.removeShardResolved fileId priorities).definitions := by
  have hremoved := removeShardEntries_removed h fileId
  revert hremoved
  unfold WorkspaceIndex.removeShardResolved
  cases index.removeShardEntries fileId with
  | mk index' affected =>
  intro hremoved
  have hshards : index'.shards = index.shards.erase fileId := hremoved.shards
  have hordinals : ∀ key file, ordinals (index'.definitions.bucket key) file =
      expected (index.shards.erase fileId) key file := by
    intro key file
    rw [hremoved.buckets, ordinals_filter_ne, expected_erase, h.ordinals]
  refine ⟨hshards, follows_of_buckets (Buckets.Full.foldl
    (fun t key ht => ht.update key (resolvePointerBucket_eq_nil _ _)) _ hremoved.full) fun key =>
      ⟨index'.definitions.bucket key, ?_, hordinals key⟩⟩
  obtain ⟨hin, hout⟩ := bucket_foldl_update index'.definitions hremoved.nodup
    (show resolvePointerBucket index'.shards priorities [] = [] from rfl) key
  by_cases hkey : key ∈ affected
  · refine (hin hkey).trans (resolvePointerBucket_eq
      (valid_of_ordinals key fun file ordinal hordinal => ?_))
    rw [hshards, ← hordinals]
    exact hordinal
  · refine (hout hkey).trans ?_
    rw [hremoved.buckets, filter_eq_self_of_expected h (hremoved.affected key hkey), h.resolved]

/-- A resolved replacement keeps the map in step. -/
theorem follows_replaceShardResolved
    (h : Follows priorities index.shards index.definitions) (shard : FileIndexShard) :
    (index.replaceShardResolved shard priorities).shards = index.shards.insert shard.fileId shard ∧
      Follows priorities (index.shards.insert shard.fileId shard)
        (index.replaceShardResolved shard priorities).definitions := by
  have hremoved := removeShardEntries_removed h shard.fileId
  revert hremoved
  unfold WorkspaceIndex.replaceShardResolved WorkspaceIndex.replaceShardEntries
  cases index.removeShardEntries shard.fileId with
  | mk index' affected =>
  intro hremoved
  dsimp only
  have hshards : index'.shards.insert shard.fileId shard =
    index.shards.insert shard.fileId shard := by
    apply Std.ExtTreeMap.ext_getElem?
    intro k
    rw [getElem?_insert, getElem?_insert, hremoved.shards, Std.ExtTreeMap.getElem?_erase]
    split_ifs with hk hcompare
    · rfl
    · exact absurd (Nat.compare_eq_eq.mp hcompare) hk
    · rfl
  let pushed := pushPointers index'.definitions (pointersOf shard.fileId shard)
  let keys := sortDedup (affected ++ shard.definitions.map definitionKey)
  have hpushed : ∀ key, pushed.bucket key = ((index.definitions.bucket key).filter fun pointer =>
      pointer.fileId != shard.fileId) ++ ownPointers shard.fileId shard key := by
    intro key
    rw [← hremoved.buckets]
    exact Buckets.bucket_foldl_push (pointersOf shard.fileId shard) index'.definitions key
  -- what is appended comes behind, file by file, and is sorted
  have hordinals : ∀ key file, ordinals (sortBucket (pushed.bucket key)) file =
      expected (index.shards.insert shard.fileId shard) key file := by
    intro key file
    rw [ordinals_sortBucket, hpushed, List.filter_append, filter_ne_file, expected_insert]
    split_ifs with hfile
    · have hown : (ownPointers shard.fileId shard key).filter
        (fun pointer => pointer.fileId = file) =
          ownPointers shard.fileId shard key :=
        List.filter_eq_self.mpr fun pointer hpointer => by
          simpa using (mem_ownPointers hpointer).1.trans hfile
      rw [hown, List.nil_append, hfile]
    · have hown : (ownPointers shard.fileId shard key).filter
        (fun pointer => pointer.fileId = file) = [] :=
        List.filter_eq_nil_iff.mpr fun pointer hpointer => by
          simpa [(mem_ownPointers hpointer).1] using hfile
      rw [hown, List.append_nil, ← ordinals_sortBucket, h.sorted, h.ordinals]
  have hfull : (sortDefinitionBuckets pushed keys).Full :=
    Buckets.Full.foldl (fun t key ht => ht.update key fun _ => sortBucket_eq_nil) _
      (hremoved.full.foldl_push _)
  refine ⟨hshards, follows_of_buckets (Buckets.Full.foldl
    (fun t key ht => ht.update key (resolvePointerBucket_eq_nil _ _)) _ hfull) fun key =>
      ⟨sortBucket (pushed.bucket key), ?_, hordinals key⟩⟩
  obtain ⟨hsorted, hunsorted⟩ := bucket_foldl_update pushed (nodup_sortDedup _)
    (show sortBucket [] = [] from rfl) key
  obtain ⟨hin, hout⟩ := bucket_foldl_update (sortDefinitionBuckets pushed keys) (nodup_sortDedup _)
    (show resolvePointerBucket (index'.shards.insert shard.fileId shard) priorities [] =
      [] from rfl) key
  by_cases hkey : key ∈ keys
  · refine (hin hkey).trans ?_
    rw [show (sortDefinitionBuckets pushed keys).bucket key = _ from hsorted hkey]
    refine resolvePointerBucket_eq (valid_of_ordinals key fun file ordinal hordinal => ?_)
    rw [hshards, ← hordinals]
    exact hordinal
  · refine (hout hkey).trans ((hunsorted hkey).trans ?_)
    have hnot := fun hmem => hkey (mem_sortDedup.mpr (List.mem_append_left _ hmem))
    have hown : ownPointers shard.fileId shard key = [] :=
      List.eq_nil_iff_forall_not_mem.mpr fun pointer hpointer =>
        hkey (mem_sortDedup.mpr (List.mem_append_right _ (mem_ownPointers hpointer).2.2))
    rw [hpushed, hown, List.append_nil, filter_eq_self_of_expected h (hremoved.affected key hnot),
      h.sorted, h.resolved]

/-! ## Runs -/

/-- A change with fixed priorities. -/
inductive ResolvedChange where
  | replace (shard : FileIndexShard)
  | remove (fileId : Nat)

def WorkspaceIndex.apply (priorities : Priorities) (index : WorkspaceIndex) :
    ResolvedChange → WorkspaceIndex
  | .replace shard => index.replaceShardResolved shard priorities
  | .remove fileId => index.removeShardResolved fileId priorities

/-- The shards after a change. -/
def ResolvedChange.after (shards : Shards) : ResolvedChange → Shards
  | .replace shard => shards.insert shard.fileId shard
  | .remove fileId => shards.erase fileId

/-- The shards by file. -/
def shardsOf (shards : List FileIndexShard) : Shards :=
  shards.foldl (fun all (shard : FileIndexShard) => all.insert shard.fileId shard) ∅

/-- The index of a set of shards. -/
def rebuilt (shards : List FileIndexShard) (priorities : Priorities) : WorkspaceIndex :=
  (WorkspaceIndex.fromShards shards).resolvePriorities priorities

theorem rebuilt_follows (shards : List FileIndexShard) :
    Follows priorities (shardsOf shards) (rebuilt shards priorities).definitions :=
  follows_rebuilt { WorkspaceIndex.empty with shards := shardsOf shards } priorities

theorem apply_follows (h : Follows priorities index.shards index.definitions)
    (change : ResolvedChange) : (index.apply priorities change).shards = change.after index.shards ∧
      Follows priorities (change.after index.shards)
        (index.apply priorities change).definitions := by
  cases change with
  | replace shard => exact follows_replaceShardResolved h shard
  | remove fileId => exact follows_removeShardResolved h fileId

/-- A run leaves the shards that it gives and a map that follows them. -/
theorem run_follows (changes : List ResolvedChange) :
    ∀ {index : WorkspaceIndex}, Follows priorities index.shards index.definitions →
      (changes.foldl (WorkspaceIndex.apply priorities) index).shards =
          changes.foldl ResolvedChange.after index.shards ∧
        Follows priorities (changes.foldl ResolvedChange.after index.shards)
          (changes.foldl (WorkspaceIndex.apply priorities) index).definitions := by
  induction changes with
  | nil => exact fun h => ⟨rfl, h⟩
  | cons change changes ih =>
    intro index h
    obtain ⟨hshards, hfollows⟩ := apply_follows h change
    rw [List.foldl_cons, List.foldl_cons, ← hshards]
    exact ih (hshards ▸ hfollows)

/-- Every shard is under its own file. -/
def Keyed (shards : Shards) : Prop :=
  ∀ (fileId : Nat) (shard : FileIndexShard), shards[fileId]? = some shard → shard.fileId = fileId

theorem keyed_insert {shards : Shards} (h : Keyed shards) (shard : FileIndexShard) :
    Keyed (shards.insert shard.fileId shard) := by
  intro fileId other hother
  rw [getElem?_insert] at hother
  split_ifs at hother with hfile
  · exact Option.some.inj hother ▸ hfile
  · exact h fileId other hother

theorem keyed_shardsOf (shards : List FileIndexShard) : Keyed (shardsOf shards) := by
  refine List.foldlRecOn shards _ (fun fileId shard h => ?_) fun all hall shard _ =>
    keyed_insert hall shard
  rw [Std.ExtTreeMap.getElem?_empty] at h
  cases h

theorem keyed_run (changes : List ResolvedChange) :
    ∀ {shards : Shards}, Keyed shards → Keyed (changes.foldl ResolvedChange.after shards) := by
  induction changes with
  | nil => exact fun h => h
  | cons change changes ih =>
    refine fun h => ih ?_
    cases change with
    | replace shard => exact keyed_insert h shard
    | remove removed =>
      intro fileId shard hshard
      unfold ResolvedChange.after at hshard
      rw [Std.ExtTreeMap.getElem?_erase] at hshard
      split_ifs at hshard
      exact h fileId shard hshard

/-- Shards under their files are those of their values. -/
theorem shardsOf_values {shards : Shards} (h : Keyed shards) :
    shardsOf (shards.toList.map Prod.snd) = shards := by
  have hfold : shardsOf (shards.toList.map Prod.snd) =
      shards.toList.foldl (fun all p => all.insert p.1 p.2) ∅ := by
    unfold shardsOf
    rw [List.foldl_map]
    refine List.foldl_ext _ _ _ fun all p hp => ?_
    rw [h p.1 p.2 (Std.ExtTreeMap.mem_toList_iff_getElem?_eq_some.mp hp)]
  let keep (_ : Nat) (shard : FileIndexShard) : FileIndexShard := shard
  have hall : shards.toList.foldl (fun all p => all.insert p.1 (keep p.1 p.2)) ∅ =
    shards.map keep :=
    foldl_insert_toList shards fun k _ => Std.ExtTreeMap.getElem?_empty
  refine (hfold.trans hall).trans ?_
  apply Std.ExtTreeMap.ext_getElem?
  intro k
  rw [Std.ExtTreeMap.getElem?_map]
  exact Option.map_id'

/-- After any run the lookups are those of a rebuild from the final shards. -/
theorem lookups_eq_rebuilt (initial : List FileIndexShard) (priorities : Priorities)
    (changes : List ResolvedChange) :
    let index := changes.foldl (WorkspaceIndex.apply priorities) (rebuilt initial priorities)
    let rebuilt := rebuilt
      ((changes.foldl ResolvedChange.after (shardsOf initial)).toList.map Prod.snd) priorities
    (∀ kind name, index.definitionsFor kind name = rebuilt.definitionsFor kind name) ∧
      (∀ kind name, index.definitionsWithState kind name = rebuilt.definitionsWithState kind name) ∧
      (∀ kind name, index.activeDefinition kind name = rebuilt.activeDefinition kind name) ∧
      (∀ kind name, index.activeDynamicDefinition kind name =
        rebuilt.activeDynamicDefinition kind name) ∧
      (∀ kind name, index.activeDefinitionAttributes kind name =
        rebuilt.activeDefinitionAttributes kind name) ∧
      index.definitionsIter = rebuilt.definitionsIter ∧
      index.definitionIdentities = rebuilt.definitionIdentities ∧
      index.definitionKinds = rebuilt.definitionKinds ∧
      (∀ kind, index.definitionsForKind kind = rebuilt.definitionsForKind kind) ∧
      (∀ kind, index.definitionsForKindWithState kind = rebuilt.definitionsForKindWithState kind) ∧
      (∀ fileId, index.definitionsForFileWithState fileId =
        rebuilt.definitionsForFileWithState fileId) ∧
      (∀ fileId, index.references fileId = rebuilt.references fileId) ∧
      index.referencesIter = rebuilt.referencesIter := by
  intro index rebuilt'
  have hinitial : Follows priorities (rebuilt initial priorities).shards
      (rebuilt initial priorities).definitions := rebuilt_follows initial
  obtain ⟨hshards, hfollows⟩ := run_follows changes hinitial
  have hvalues := shardsOf_values (keyed_run changes (keyed_shardsOf initial))
  have hsame : index.shards = rebuilt'.shards := hshards.trans hvalues.symm
  have hrebuilt : Follows priorities (changes.foldl ResolvedChange.after (shardsOf initial))
      rebuilt'.definitions := hvalues ▸ rebuilt_follows _
  have hdefinitions : index.definitions = rebuilt'.definitions := hfollows.eq hrebuilt
  have hbucket : ∀ kind name, index.definitionBucket kind name =
    rebuilt'.definitionBucket kind name := by
    intro kind name
    unfold WorkspaceIndex.definitionBucket
    rw [hdefinitions]
  have hstate : index.withState = rebuilt'.withState := by
    funext pointer
    unfold WorkspaceIndex.withState
    rw [hsame]
  have hwith : ∀ kind name, index.definitionsWithState kind name =
      rebuilt'.definitionsWithState kind name := by
    intro kind name
    unfold WorkspaceIndex.definitionsWithState
    rw [hbucket, hstate]
  have hactive : ∀ kind name, index.activeDefinition kind name =
    rebuilt'.activeDefinition kind name := by
    intro kind name
    unfold WorkspaceIndex.activeDefinition
    rw [hwith]
  have hpointers : index.pointers = rebuilt'.pointers := by
    unfold WorkspaceIndex.pointers
    rw [hdefinitions]
  have hkind : ∀ kind, index.pointersForKind kind = rebuilt'.pointersForKind kind := by
    intro kind
    unfold WorkspaceIndex.pointersForKind
    rw [hdefinitions]
  refine ⟨fun kind name => ?_, hwith, hactive, fun kind name => ?_, fun kind name => ?_, ?_, ?_, ?_,
    fun kind => ?_, fun kind => ?_, fun fileId => ?_, fun fileId => ?_, ?_⟩
  · unfold WorkspaceIndex.definitionsFor
    rw [hbucket, hsame]
  · unfold WorkspaceIndex.activeDynamicDefinition
    rw [hactive, hsame]
  · unfold WorkspaceIndex.activeDefinitionAttributes
    rw [hactive, hsame]
  · unfold WorkspaceIndex.definitionsIter
    rw [hpointers, hsame]
  · unfold WorkspaceIndex.definitionIdentities
    rw [hpointers, hstate]
  · unfold WorkspaceIndex.definitionKinds
    rw [hdefinitions]
  · unfold WorkspaceIndex.definitionsForKind
    rw [hkind, hsame]
  · unfold WorkspaceIndex.definitionsForKindWithState
    rw [hkind, hstate]
  · unfold WorkspaceIndex.definitionsForFileWithState
    rw [hsame]
    simp only [hbucket]
  · unfold WorkspaceIndex.references
    rw [hsame]
  · unfold WorkspaceIndex.referencesIter
    rw [hsame]

end ParadoxCode.Workspace
