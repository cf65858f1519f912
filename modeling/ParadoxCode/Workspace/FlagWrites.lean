import ParadoxCode.Workspace.Resolved

/-!
# The view of flag writes

A view is the set of what the writes of the shards record (`hasEntry_flagWritesOf`). Only a rebuild
and a replay renew it, so that it stays in step with the shards exactly when no other change adds or
drops an entry.
-/

namespace ParadoxCode.Workspace

open Engine Engine.Store Format NatMap
open Index (FlagWrite)

/-! ## Entries of a view -/

/-- What a write records. -/
inductive FlagEntry where
  | literal (text : Str)
  | pattern (front back : Str)
  | isOpen
  deriving DecidableEq

/-- The entry of a name. -/
def entryOf (name : Str) : FlagEntry :=
  let lowered := toAsciiLowercase name
  if '$' ∉ lowered then .literal lowered
  else
    let segments := lowered.splitOn '$'
    let front := segments.head?.getD []
    let back := segments.tail.getLast?.getD []
    if front = [] ∧ back = [] then .isOpen else .pattern front back

/-- The entry of a write, with its kind. -/
def recorded (write : FlagWrite) : Str × FlagEntry :=
  (toAsciiLowercase write.kind, entryOf write.name)

namespace FlagWriteIndex

variable (view : FlagWriteIndex)

def Has : FlagEntry → Prop
  | .literal text => text ∈ view.literals
  | .pattern front back => (front, back) ∈ view.patterns
  | .isOpen => view.isOpen = true

theorem ext_has {left right : FlagWriteIndex} (h : ∀ entry, left.Has entry ↔ right.Has entry) :
    left = right := by
  obtain ⟨literals, patterns, isOpen⟩ := left
  obtain ⟨literals', patterns', isOpen'⟩ := right
  have hliterals : literals = literals' := Finset.ext fun text => h (.literal text)
  have hpatterns : patterns = patterns' := Finset.ext fun pattern =>
    h (.pattern pattern.1 pattern.2)
  have hopen : isOpen = isOpen' := Bool.eq_iff_iff.mpr (h .isOpen)
  rw [hliterals, hpatterns, hopen]

theorem has_record (name : Str) (entry : FlagEntry) :
    (view.record name).Has entry ↔ entry = entryOf name ∨ view.Has entry := by
  unfold record entryOf
  dsimp only
  split_ifs <;> cases entry <;> simp [Has]

theorem not_has_empty (entry : FlagEntry) : ¬ ({} : FlagWriteIndex).Has entry := by
  cases entry <;> simp [Has]

end FlagWriteIndex

/-! ## What views hold -/

/-- Whether the view of a kind has an entry. -/
def HasEntry (flagWrites : FlagWrites) (entry : Str × FlagEntry) : Prop :=
  ∃ view, flagWrites[entry.1]? = some view ∧ view.Has entry.2

/-- Every view has an entry. -/
def Inhabited (flagWrites : FlagWrites) : Prop :=
  ∀ (kind : Str) (view : FlagWriteIndex), flagWrites[kind]? = some view → ∃ entry, view.Has entry

/-- Views that have entries are determined by them. -/
theorem eq_of_hasEntry {left right : FlagWrites} (hleft : Inhabited left) (hright : Inhabited right)
    (h : ∀ entry, HasEntry left entry ↔ HasEntry right entry) : left = right := by
  have hsome : ∀ {as bs : FlagWrites}, Inhabited as →
    (∀ entry, HasEntry as entry ↔ HasEntry bs entry) →
      ∀ (kind : Str) (view : FlagWriteIndex), as[kind]? = some view → bs[kind]? = some view := by
    intro as bs has hsame kind view hview
    obtain ⟨entry, hentry⟩ := has kind view hview
    obtain ⟨other, hother, -⟩ := (hsame (kind, entry)).mp ⟨view, hview, hentry⟩
    refine hother.trans (congrArg some (FlagWriteIndex.ext_has fun entry => ?_))
    constructor
    · intro hin
      obtain ⟨found, hfound, hhas⟩ := (hsame (kind, entry)).mpr ⟨other, hother, hin⟩
      exact Option.some.inj (hfound.symm.trans hview) ▸ hhas
    · intro hin
      obtain ⟨found, hfound, hhas⟩ := (hsame (kind, entry)).mp ⟨view, hview, hin⟩
      exact Option.some.inj (hfound.symm.trans hother) ▸ hhas
  apply Std.ExtTreeMap.ext_getElem?
  intro kind
  cases hview : left[kind]? with
  | some view => exact (hsome hleft h kind view hview).symm
  | none =>
    cases hother : right[kind]? with
    | none => rfl
    | some view =>
      rw [hsome hright (fun entry => (h entry).symm) kind view hother] at hview
      cases hview

theorem hasEntry_recordWrite (flagWrites : FlagWrites) (write : FlagWrite)
    (entry : Str × FlagEntry) :
    HasEntry (recordWrite flagWrites write) entry ↔ entry = recorded write ∨
    HasEntry flagWrites entry := by
  obtain ⟨kind, entry⟩ := entry
  unfold HasEntry recordWrite recorded
  rw [Std.ExtTreeMap.getElem?_alter]
  simp only [Std.LawfulEqCmp.compare_eq_iff_eq, Prod.mk.injEq]
  by_cases hkind : toAsciiLowercase write.kind = kind
  · subst hkind
    rw [if_pos rfl]
    simp only [Option.some.injEq, exists_eq_left', true_and, FlagWriteIndex.has_record]
    refine or_congr Iff.rfl ?_
    cases flagWrites[toAsciiLowercase write.kind]? with
    | none =>
      exact iff_of_false (FlagWriteIndex.not_has_empty entry) fun ⟨_, h, _⟩ => nomatch h
    | some view => exact ⟨fun h => ⟨view, rfl, h⟩, fun ⟨_, h, hhas⟩ => Option.some.inj h ▸ hhas⟩
  · rw [if_neg hkind]
    exact (or_iff_right fun h => hkind h.1.symm).symm

theorem inhabited_recordWrite {flagWrites : FlagWrites} (h : Inhabited flagWrites)
    (write : FlagWrite) : Inhabited (recordWrite flagWrites write) := by
  intro kind view hview
  unfold recordWrite at hview
  rw [Std.ExtTreeMap.getElem?_alter] at hview
  split_ifs at hview
  · obtain rfl := Option.some.inj hview
    exact ⟨entryOf write.name, (FlagWriteIndex.has_record _ _ _).mpr (.inl rfl)⟩
  · exact h kind view hview

/-! ## The view of the shards -/

/-- Whether a shard writes an entry. -/
def Writes (shard : FileIndexShard) (entry : Str × FlagEntry) : Prop :=
  ∃ write ∈ shard.flagWrites, entry = recorded write

/-- The views that are built from shards. -/
def flagWritesOf (shards : Shards) : FlagWrites :=
  shards.toList.foldl (fun flagWrites p => recordShard flagWrites p.2) ∅

theorem hasEntry_recordShard (writes : List FlagWrite) (entry : Str × FlagEntry) :
    ∀ flagWrites : FlagWrites, HasEntry (writes.foldl recordWrite flagWrites) entry ↔
      (∃ write ∈ writes, entry = recorded write) ∨ HasEntry flagWrites entry := by
  induction writes with
  | nil => intro flagWrites; simp
  | cons write writes ih =>
    intro flagWrites
    rw [List.foldl_cons, ih, hasEntry_recordWrite, List.exists_mem_cons_iff, or_assoc, or_left_comm]

theorem hasEntry_flagWritesOf (shards : Shards) (entry : Str × FlagEntry) :
    HasEntry (flagWritesOf shards) entry ↔
      ∃ (fileId : Nat) (shard : FileIndexShard), shards[fileId]? = some shard ∧
      Writes shard entry := by
  have hfold : ∀ (files : List (Nat × FileIndexShard)) (flagWrites : FlagWrites),
      HasEntry (files.foldl (fun flagWrites p => recordShard flagWrites p.2) flagWrites) entry ↔
        (∃ p ∈ files, Writes p.2 entry) ∨ HasEntry flagWrites entry := by
    intro files
    induction files with
    | nil => intro flagWrites; simp
    | cons p files ih =>
      intro flagWrites
      rw [List.foldl_cons, ih, recordShard, hasEntry_recordShard,
        List.exists_mem_cons_iff, or_assoc, or_left_comm]
      rfl
  have hempty : ¬ HasEntry ∅ entry := by
    rintro ⟨view, hview, -⟩
    rw [Std.ExtTreeMap.getElem?_empty] at hview
    cases hview
  unfold flagWritesOf
  rw [hfold, or_iff_left hempty]
  constructor
  · rintro ⟨p, hp, hwrites⟩
    exact ⟨p.1, p.2, Std.ExtTreeMap.mem_toList_iff_getElem?_eq_some.mp hp, hwrites⟩
  · rintro ⟨fileId, shard, hshard, hwrites⟩
    exact ⟨(fileId, shard), Std.ExtTreeMap.mem_toList_iff_getElem?_eq_some.mpr hshard, hwrites⟩

theorem inhabited_flagWritesOf (shards : Shards) : Inhabited (flagWritesOf shards) := by
  have hwrites : ∀ (writes : List FlagWrite) {flagWrites : FlagWrites}, Inhabited flagWrites →
      Inhabited (writes.foldl recordWrite flagWrites) := by
    intro writes
    induction writes with
    | nil => exact fun h => h
    | cons write writes ih => exact fun h => ih (inhabited_recordWrite h write)
  refine List.foldlRecOn shards.toList _ (fun kind view hview => ?_) fun flagWrites h p _ =>
    hwrites p.2.flagWrites h
  rw [Std.ExtTreeMap.getElem?_empty] at hview
  cases hview

/-- Shards with the same entries have one view. -/
theorem flagWritesOf_eq_iff (shards shards' : Shards) :
    flagWritesOf shards = flagWritesOf shards' ↔ ∀ entry,
      (∃ (fileId : Nat) (shard : FileIndexShard), shards[fileId]? = some shard ∧
        Writes shard entry) ↔
        ∃ (fileId : Nat) (shard : FileIndexShard), shards'[fileId]? = some shard ∧
        Writes shard entry := by
  simp only [← hasEntry_flagWritesOf]
  exact ⟨fun h entry => by rw [h], eq_of_hasEntry (inhabited_flagWritesOf _)
    (inhabited_flagWritesOf _)⟩

/-! ## Changes of one file -/

/-- Whether a file other than this one writes an entry. -/
def WrittenElsewhere (shards : Shards) (fileId : Nat) (entry : Str × FlagEntry) : Prop :=
  ∃ (other : Nat) (shard : FileIndexShard), other ≠ fileId ∧ shards[other]? = some shard ∧
    Writes shard entry

/-- Whether a file's old shard and its new one write the same, but for what other files write
too. -/
def KeepsFlags (shards : Shards) (fileId : Nat) (new : Option FileIndexShard) : Prop :=
  ∀ entry, ¬ WrittenElsewhere shards fileId entry →
    ((∃ shard ∈ shards[fileId]?, Writes shard entry) ↔ ∃ shard ∈ new, Writes shard entry)

theorem written_iff (shards : Shards) (fileId : Nat) (entry : Str × FlagEntry) :
    (∃ (other : Nat) (shard : FileIndexShard), shards[other]? = some shard ∧ Writes shard entry) ↔
      WrittenElsewhere shards fileId entry ∨ ∃ shard ∈ shards[fileId]?, Writes shard entry := by
  constructor
  · rintro ⟨other, shard, hshard, hwrites⟩
    by_cases hfile : other = fileId
    · exact .inr ⟨shard, hfile ▸ hshard, hwrites⟩
    · exact .inl ⟨other, shard, hfile, hshard, hwrites⟩
  · rintro (⟨other, shard, -, hshard, hwrites⟩ | ⟨shard, hshard, hwrites⟩)
    · exact ⟨other, shard, hshard, hwrites⟩
    · exact ⟨fileId, shard, hshard, hwrites⟩

/-- The shards of one file are changed. -/
theorem flagWritesOf_change (shards shards' : Shards) {fileId : Nat} {new : Option FileIndexShard}
    (hnew : shards'[fileId]? = new)
    (hother : ∀ other : Nat, other ≠ fileId → shards'[other]? = shards[other]?) :
    flagWritesOf shards = flagWritesOf shards' ↔ KeepsFlags shards fileId new := by
  have helsewhere : ∀ entry, WrittenElsewhere shards' fileId entry ↔
    WrittenElsewhere shards fileId entry := by
    intro entry
    refine exists_congr fun other => exists_congr fun shard => and_congr_right fun hne => ?_
    rw [hother other hne]
  rw [flagWritesOf_eq_iff]
  refine forall_congr' fun entry => ?_
  rw [written_iff shards fileId, written_iff shards' fileId, helsewhere, hnew]
  by_cases hentry : WrittenElsewhere shards fileId entry <;> simp [hentry]

/-! ## The operations -/

theorem removeShardEntries_shards (index : WorkspaceIndex) (fileId k : Nat) :
    (index.removeShardEntries fileId).1.shards[k]? = if fileId = k then none else
      index.shards[k]? := by
  unfold WorkspaceIndex.removeShardEntries
  cases hshard : index.shards[fileId]? with
  | none =>
    dsimp only
    split_ifs with hk
    · rw [← hk, hshard]
    · rfl
  | some previous =>
    dsimp only
    rw [Std.ExtTreeMap.getElem?_erase]
    simp only [Nat.compare_eq_eq]

theorem removeShardEntries_flagWrites (index : WorkspaceIndex) (fileId : Nat) :
    (index.removeShardEntries fileId).1.flagWrites = index.flagWrites := by
  unfold WorkspaceIndex.removeShardEntries
  cases index.shards[fileId]? <;> rfl

theorem replaceShardEntries_shards (index : WorkspaceIndex) (shard : FileIndexShard) (k : Nat) :
    (index.replaceShardEntries shard).1.shards[k]? =
      if shard.fileId = k then some shard else index.shards[k]? := by
  have hremoved := removeShardEntries_shards index shard.fileId k
  unfold WorkspaceIndex.replaceShardEntries
  cases hentries : index.removeShardEntries shard.fileId with
  | mk index' affected =>
  rw [hentries] at hremoved
  dsimp only at hremoved ⊢
  rw [getElem?_insert, hremoved]
  split_ifs <;> rfl

theorem replaceShardEntries_flagWrites (index : WorkspaceIndex) (shard : FileIndexShard) :
    (index.replaceShardEntries shard).1.flagWrites = index.flagWrites := by
  rw [← removeShardEntries_flagWrites index shard.fileId]
  unfold WorkspaceIndex.replaceShardEntries
  cases index.removeShardEntries shard.fileId
  rfl

/-- An index whose entries of a file are replaced. -/
structure Changed (index : WorkspaceIndex) (fileId : Nat) (new : Option FileIndexShard)
    (index' : WorkspaceIndex) : Prop where
  flagWrites : index'.flagWrites = index.flagWrites
  shards : ∀ k : Nat, index'.shards[k]? = if fileId = k then new else index.shards[k]?

theorem changed_replaceShard (index : WorkspaceIndex) (shard : FileIndexShard) :
    Changed index shard.fileId (some shard) (index.replaceShard shard) :=
  ⟨replaceShardEntries_flagWrites index shard, replaceShardEntries_shards index shard⟩

theorem changed_replaceShardResolved (index : WorkspaceIndex) (shard : FileIndexShard)
    (priorities : Priorities) :
    Changed index shard.fileId (some shard) (index.replaceShardResolved shard priorities) := by
  have hflags := replaceShardEntries_flagWrites index shard
  have hshards := replaceShardEntries_shards index shard
  unfold WorkspaceIndex.replaceShardResolved
  cases hentries : index.replaceShardEntries shard with
  | mk index' affected =>
  rw [hentries] at hflags hshards
  exact ⟨hflags, hshards⟩

theorem changed_removeShard (index : WorkspaceIndex) (fileId : Nat) :
    Changed index fileId none (index.removeShard fileId) := by
  have hflags := removeShardEntries_flagWrites index fileId
  have hshards := removeShardEntries_shards index fileId
  unfold WorkspaceIndex.removeShard
  cases hentries : index.removeShardEntries fileId with
  | mk index' affected =>
  rw [hentries] at hflags hshards
  exact ⟨hflags, hshards⟩

theorem changed_removeShardResolved (index : WorkspaceIndex) (fileId : Nat)
    (priorities : Priorities) :
    Changed index fileId none (index.removeShardResolved fileId priorities) := by
  have hflags := removeShardEntries_flagWrites index fileId
  have hshards := removeShardEntries_shards index fileId
  unfold WorkspaceIndex.removeShardResolved
  cases hentries : index.removeShardEntries fileId with
  | mk index' affected =>
  rw [hentries] at hflags hshards
  exact ⟨hflags, hshards⟩

inductive Change where
  | replace (shard : FileIndexShard)
  | remove (fileId : Nat)
  | replaceResolved (shard : FileIndexShard) (priorities : Priorities)
  | removeResolved (fileId : Nat) (priorities : Priorities)
  | replay (shards : List (FileIndexShard × Bool)) (priorities : Priorities)

def WorkspaceIndex.change (index : WorkspaceIndex) : Change → WorkspaceIndex
  | .replace shard => index.replaceShard shard
  | .remove fileId => index.removeShard fileId
  | .replaceResolved shard priorities => index.replaceShardResolved shard priorities
  | .removeResolved fileId priorities => index.removeShardResolved fileId priorities
  | .replay shards priorities => index.replaceReplayedShards shards priorities

/-- The view is the one of the shards. -/
def WorkspaceIndex.InStep (index : WorkspaceIndex) : Prop :=
  index.flagWrites = flagWritesOf index.shards

/-- Whether a change leaves the view of the shards. -/
def Change.Meets (index : WorkspaceIndex) : Change → Prop
  | .replace shard | .replaceResolved shard _ => KeepsFlags index.shards shard.fileId (some shard)
  | .remove fileId | .removeResolved fileId _ => KeepsFlags index.shards fileId none
  | .replay _ _ => True

/-- An index whose view was kept while a file has changed. -/
theorem inStep_iff_of_changed {index index' : WorkspaceIndex} (h : index.InStep) {fileId : Nat}
    {new : Option FileIndexShard} (hchanged : Changed index fileId new index') :
    index'.InStep ↔ KeepsFlags index.shards fileId new := by
  have hchange : flagWritesOf index.shards = flagWritesOf index'.shards ↔
      KeepsFlags index.shards fileId new :=
    flagWritesOf_change index.shards index'.shards ((hchanged.shards fileId).trans (if_pos rfl))
      fun other hne => (hchanged.shards other).trans (if_neg (Ne.symm hne))
  rw [← hchange]
  unfold WorkspaceIndex.InStep
  rw [hchanged.flagWrites, h]

theorem replayShard_keeps (priorities : Priorities) (index : WorkspaceIndex)
    (state : WorkspaceIndex × Bool) (entry : FileIndexShard × Bool)
    (h : state.1.flagWrites = index.flagWrites ∧
      (state.2 = false → flagWritesOf state.1.shards = flagWritesOf index.shards)) :
    (replayShard priorities state entry).1.flagWrites = index.flagWrites ∧
      ((replayShard priorities state entry).2 = false →
        flagWritesOf (replayShard priorities state entry).1.shards =
          flagWritesOf index.shards) := by
  obtain ⟨index', changed⟩ := state
  obtain ⟨shard, isSame⟩ := entry
  unfold replayShard
  dsimp only at h ⊢
  -- a shard with the flag writes of its predecessor
  have hkeep : ∀ previous : FileIndexShard, index'.shards[shard.fileId]? = some previous →
      previous.flagWrites = shard.flagWrites → KeepsFlags index'.shards shard.fileId
        (some shard) := by
    intro previous hprevious hsame entry _
    rw [hprevious]
    unfold Writes
    simp [hsame]
  have hreplace := changed_replaceShardResolved index' shard priorities
  cases hprevious : index'.shards[shard.fileId]? with
  | none =>
    refine ⟨hreplace.flagWrites.trans h.1, fun hfalse => ?_⟩
    cases hfalse
  | some previous =>
    dsimp only
    split_ifs with hsame hfacts
    · exact h
    · refine ⟨h.1, fun hfalse => ?_⟩
      rw [Bool.or_eq_false_iff, bne_eq_false_iff_eq] at hfalse
      rw [← h.2 hfalse.1]
      refine ((flagWritesOf_change _ _ ?_ fun other hne => ?_).mpr
        (hkeep previous hprevious hfalse.2)).symm
      · rw [getElem?_insert, if_pos rfl]
      · rw [getElem?_insert, if_neg (Ne.symm hne)]
    · refine ⟨hreplace.flagWrites.trans h.1, fun hfalse => ?_⟩
      rw [Bool.or_eq_false_iff, bne_eq_false_iff_eq] at hfalse
      rw [← h.2 hfalse.1]
      refine ((flagWritesOf_change _ _ ?_ fun other hne => ?_).mpr
        (hkeep previous hprevious hfalse.2)).symm
      · rw [hreplace.shards, if_pos rfl]
      · rw [hreplace.shards, if_neg (Ne.symm hne)]

/-- A replay leaves the view in step. -/
theorem inStep_replay {index : WorkspaceIndex} (h : index.InStep)
    (shards : List (FileIndexShard × Bool))
    (priorities : Priorities) : (index.replaceReplayedShards shards priorities).InStep := by
  have hloop := List.foldlRecOn shards (replayShard priorities)
    (motive := fun state : WorkspaceIndex × Bool => state.1.flagWrites = index.flagWrites ∧
      (state.2 = false → flagWritesOf state.1.shards = flagWritesOf index.shards))
    (b := (index, false)) ⟨rfl, fun _ => rfl⟩
    fun state hstate entry _ => replayShard_keeps priorities index state entry hstate
  unfold WorkspaceIndex.replaceReplayedShards
  revert hloop
  cases shards.foldl (replayShard priorities) (index, false) with
  | mk index' changed =>
  intro hloop
  dsimp only
  split_ifs with hchanged
  · rfl
  · unfold WorkspaceIndex.InStep
    rw [hloop.2 (Bool.eq_false_iff.mpr hchanged), ← h]
    exact hloop.1

/-- A change leaves the view in step exactly if it meets its condition. -/
theorem inStep_change_iff {index : WorkspaceIndex} (h : index.InStep) (change : Change) :
    (index.change change).InStep ↔ change.Meets index := by
  cases change with
  | replace shard => exact inStep_iff_of_changed h (changed_replaceShard index shard)
  | remove fileId => exact inStep_iff_of_changed h (changed_removeShard index fileId)
  | replaceResolved shard priorities =>
    exact inStep_iff_of_changed h (changed_replaceShardResolved index shard priorities)
  | removeResolved fileId priorities =>
    exact inStep_iff_of_changed h (changed_removeShardResolved index fileId priorities)
  | replay shards priorities => exact iff_of_true (inStep_replay h shards priorities) trivial

/-! ## Runs -/

def WorkspaceIndex.run (index : WorkspaceIndex) (changes : List Change) : WorkspaceIndex :=
  changes.foldl WorkspaceIndex.change index

/-- Whether every change of a run meets its condition. -/
def MeetsAll : WorkspaceIndex → List Change → Prop
  | _, [] => True
  | index, change :: changes => change.Meets index ∧ MeetsAll (index.change change) changes

theorem inStep_fromShards (shards : List FileIndexShard) :
    (WorkspaceIndex.fromShards shards).InStep := rfl

/-- The views follow the shards through a run exactly if every change meets its condition. -/
theorem inStep_run_iff (initial : List FileIndexShard) (changes : List Change) :
    (∀ front back, changes = front ++ back →
      ((WorkspaceIndex.fromShards initial).run front).InStep) ↔
      MeetsAll (WorkspaceIndex.fromShards initial) changes := by
  have hrun : ∀ (changes : List Change) (index : WorkspaceIndex), index.InStep →
      ((∀ front back, changes = front ++ back → (index.run front).InStep) ↔
        MeetsAll index changes) := by
    intro changes
    induction changes with
    | nil =>
      intro index h
      refine iff_of_true (fun front back hsplit => ?_) trivial
      obtain ⟨rfl, -⟩ := List.append_eq_nil_iff.mp hsplit.symm
      exact h
    | cons change changes ih =>
      intro index h
      constructor
      · intro hall
        have hfirst : (index.change change).InStep := hall [change] changes rfl
        exact ⟨(inStep_change_iff h change).mp hfirst, (ih _ hfirst).mp fun front back hsplit =>
          hall (change :: front) back (by rw [hsplit]; rfl)⟩
      · rintro ⟨hmeets, hrest⟩ front back hsplit
        have hfirst := (inStep_change_iff h change).mpr hmeets
        cases front with
        | nil => exact h
        | cons first front =>
          obtain ⟨rfl, htail⟩ := List.cons.inj hsplit
          exact (ih _ hfirst).mpr hrest front back htail
  exact hrun changes _ (inStep_fromShards initial)

/-- A shard that sets one flag. -/
def flagShard : FileIndexShard :=
  { FileIndexShard.empty 1 with
    flagWrites := [⟨"country_flag".toList, "won".toList, .sized 0 3⟩] }

/-- A flag that a new file sets is not found. -/
theorem inStep_run_fails : ¬ ∀ (initial : List FileIndexShard) (changes : List Change),
    ((WorkspaceIndex.fromShards initial).run changes).InStep := by
  intro h
  have hstep := h [] [.replace flagShard]
  have hmeets := (inStep_change_iff (inStep_fromShards []) (.replace flagShard)).mp hstep
  have hwrites : Writes flagShard (recorded ⟨"country_flag".toList, "won".toList,
    ⟨0, 3, by decide⟩⟩) :=
    ⟨_, List.mem_cons_self, rfl⟩
  have hnone : ∀ k : Nat, (WorkspaceIndex.fromShards []).shards[k]? = none := fun k =>
    Std.ExtTreeMap.getElem?_empty
  have helsewhere : ¬ WrittenElsewhere (WorkspaceIndex.fromShards []).shards flagShard.fileId
      (recorded ⟨"country_flag".toList, "won".toList, ⟨0, 3, by decide⟩⟩) := by
    rintro ⟨other, shard, -, hshard, -⟩
    rw [hnone] at hshard
    cases hshard
  obtain ⟨shard, hshard, -⟩ := (hmeets _ helsewhere).mpr ⟨flagShard, rfl, hwrites⟩
  rw [hnone] at hshard
  cases hshard

end ParadoxCode.Workspace
