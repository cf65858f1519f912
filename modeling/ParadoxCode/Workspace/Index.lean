import Mathlib.Data.Char
import Mathlib.Data.Finset.Insert
import Mathlib.Data.List.Dedup
import Mathlib.Data.List.Lex
import Mathlib.Data.Prod.Lex
import ParadoxCode.Engine.CacheSchema
import ParadoxCode.Lib.Buckets
import ParadoxCode.Lib.StableSort

/-!
# The workspace index

`WorkspaceIndex` of `index.rs`: the shards of all files with the lookup maps that are derived from
them. A shard is immutable and shared; whether two handles are one is an input of the replay.
Nothing is cancelled.
-/

namespace ParadoxCode.Workspace

open Engine Engine.Store Format NatMap StableSort
open Index (FlagWrite PositionRange)

/-! ## Flag writes -/

inductive FlagWriteMembership where
  | literal
  | pattern
  | isOpen
  | unknown
  deriving DecidableEq

structure FlagWriteIndex where
  literals : Finset Str := ∅
  patterns : Finset (Str × Str) := ∅
  isOpen : Bool := false
  deriving DecidableEq

/-- `FlagWriteIndex::membership`. -/
def FlagWriteIndex.membership (view : FlagWriteIndex) (member : Str) : FlagWriteMembership :=
  let lowered := toAsciiLowercase member
  if view.isOpen = true then .isOpen
  else if lowered ∈ view.literals then .literal
  else if ∃ pattern ∈ view.patterns, byteLen pattern.1 + byteLen pattern.2 ≤ byteLen lowered ∧
      pattern.1 <+: lowered ∧ pattern.2 <:+ lowered then .pattern
  else .unknown

/-- `FlagWriteIndex::record`. -/
def FlagWriteIndex.record (view : FlagWriteIndex) (name : Str) : FlagWriteIndex :=
  let lowered := toAsciiLowercase name
  if '$' ∉ lowered then { view with literals := insert lowered view.literals }
  else
    let segments := lowered.splitOn '$'
    let front := segments.head?.getD []
    let back := segments.tail.getLast?.getD []
    if front = [] ∧ back = [] then { view with isOpen := true }
    else { view with patterns := insert (front, back) view.patterns }

/-- The views by kind. -/
abbrev FlagWrites : Type := Std.ExtTreeMap Str FlagWriteIndex

/-- Records one write in the view of its kind. -/
def recordWrite (flagWrites : FlagWrites) (write : FlagWrite) : FlagWrites :=
  flagWrites.alter (toAsciiLowercase write.kind) fun view => some ((view.getD {}).record write.name)

/-- Records the writes of a shard. -/
def recordShard (flagWrites : FlagWrites) (shard : FileIndexShard) : FlagWrites :=
  shard.flagWrites.foldl recordWrite flagWrites

/-! ## The index -/

structure DefinitionPointer where
  fileId : Nat
  ordinal : Nat
  active : Bool
  deriving DecidableEq

/-- The lookup map of the definitions: the kind as written and the folded name. -/
abbrev Definitions : Type := Buckets Str Str DefinitionPointer

/-- The shards by file. -/
abbrev Shards : Type := Std.ExtTreeMap Nat FileIndexShard

/-- The priorities by file; a file without one has the lowest. -/
abbrev Priorities : Type := Std.ExtTreeMap Nat Nat

structure WorkspaceIndex where
  shards : Shards
  definitions : Definitions
  flagWrites : FlagWrites
  positionRanges : FileMap PositionRange

/-- `remove_file`. -/
def removeFile {α : Type} (map : FileMap α) (fileId : Nat) : FileMap α where
  byFile := map.byFile.erase fileId
  nonempty id := by
    rw [Std.ExtTreeMap.getElem?_erase]
    split_ifs
    · exact fun h => nomatch h
    · exact map.nonempty id
  sorted id entries h := by
    rw [Std.ExtTreeMap.getElem?_erase] at h
    split_ifs at h
    exact map.sorted id entries h

/-- The map without files. -/
def noEntries (α : Type) : FileMap α where
  byFile := ∅
  nonempty id := by simp
  sorted id entries h := by simp at h

/-- `WorkspaceIndex::empty`. -/
def WorkspaceIndex.empty : WorkspaceIndex := ⟨∅, ∅, ∅, noEntries _⟩

/-- `lookup_name`. -/
def lookupName (name : Str) : Str := toAsciiLowercase name

/-- `definition_key`. -/
def definitionKey (definition : Definition) : Str × Str :=
  (definition.kind, lookupName definition.name)

/-- `definition_at`. -/
def definitionAt (shards : Shards) (pointer : DefinitionPointer) : Option Definition := do
  let shard ← shards[pointer.fileId]?
  shard.definitions[pointer.ordinal]?

/-! ## Buckets -/

/-- The order of a bucket. -/
def DefinitionPointer.sortKey (pointer : DefinitionPointer) : Bool ×ₗ Nat :=
  toLex (!pointer.active, pointer.fileId)

def sortBucket (values : List DefinitionPointer) : List DefinitionPointer :=
  sortByKey DefinitionPointer.sortKey values

def priorityOf (priorities : Priorities) (fileId : Nat) : Nat := priorities[fileId]?.getD 0

/-- `resolve_pointer_bucket`. -/
def resolvePointerBucket (shards : Shards) (priorities : Priorities)
    (values : List DefinitionPointer) : List DefinitionPointer :=
  match values with
  | [pointer] =>
    if (definitionAt shards pointer).isSome then [{ pointer with active := true }] else [pointer]
  | values =>
    match (values.map fun pointer => priorityOf priorities pointer.fileId).max? with
    | none => values
    | some highest =>
      sortBucket (values.map fun pointer =>
        if (definitionAt shards pointer).isSome then
          { pointer with active := priorityOf priorities pointer.fileId == highest }
        else pointer)

/-- `sort_definition_buckets`. -/
def sortDefinitionBuckets (definitions : Definitions) (keys : List (Str × Str)) : Definitions :=
  keys.foldl (fun definitions key => definitions.update key sortBucket) definitions

/-- `resolve_definition_buckets`. -/
def WorkspaceIndex.resolveDefinitionBuckets (index : WorkspaceIndex) (keys : List (Str × Str))
    (priorities : Priorities) : WorkspaceIndex :=
  { index with
    definitions := keys.foldl
      (fun definitions key => definitions.update key (resolvePointerBucket index.shards priorities))
      index.definitions }

/-- The pointers of a shard with their keys. -/
def pointersOf (fileId : Nat) (shard : FileIndexShard) : List ((Str × Str) × DefinitionPointer) :=
  shard.definitions.zipIdx.map fun (definition, ordinal) =>
    (definitionKey definition, ⟨fileId, ordinal, definition.active⟩)

/-- Appends pointers to their buckets. -/
def pushPointers (definitions : Definitions) (pointers : List ((Str × Str) × DefinitionPointer)) :
    Definitions :=
  pointers.foldl (fun definitions p => definitions.push p.1 p.2) definitions

/-! ## Construction -/

/-- `rebuild_maps_cancellable`. -/
def WorkspaceIndex.rebuildMaps (index : WorkspaceIndex) : WorkspaceIndex :=
  let definitions := index.shards.toList.foldl
    (fun definitions (fileId, shard) => pushPointers definitions (pointersOf fileId shard)) ∅
  { index with
    definitions := definitions.mapLists sortBucket
    flagWrites := index.shards.toList.foldl (fun flagWrites p => recordShard flagWrites p.2) ∅ }

/-- `from_shards`. -/
def WorkspaceIndex.fromShards (shards : List FileIndexShard) : WorkspaceIndex :=
  ({ WorkspaceIndex.empty with
    shards := shards.foldl (fun all (shard : FileIndexShard) => all.insert shard.fileId shard) ∅
      }).rebuildMaps

/-- `resolve_priorities`. -/
def WorkspaceIndex.resolvePriorities (index : WorkspaceIndex) (priorities : Priorities) :
    WorkspaceIndex :=
  { index with
    definitions := index.definitions.mapLists (resolvePointerBucket index.shards priorities) }

/-! ## Changes -/

/-- `sort` and `dedup` of keys. -/
def sortDedup (keys : List (Str × Str)) : List (Str × Str) :=
  (sortByKey (fun key => toLex key) keys).dedup

/-- `remove_shard_entries`, with the keys that it touches. -/
def WorkspaceIndex.removeShardEntries (index : WorkspaceIndex) (fileId : Nat) :
    WorkspaceIndex × List (Str × Str) :=
  let positionRanges := removeFile index.positionRanges fileId
  match index.shards[fileId]? with
  | none => ({ index with positionRanges }, [])
  | some previous =>
    let affected := sortDedup (previous.definitions.map definitionKey)
    ({ index with
      positionRanges
      shards := index.shards.erase fileId
      definitions := affected.foldl
        (fun definitions key => definitions.retain key fun pointer => pointer.fileId != fileId)
        index.definitions }, affected)

/-- `replace_shard_entries`, with the keys that it touches. -/
def WorkspaceIndex.replaceShardEntries (index : WorkspaceIndex) (shard : FileIndexShard) :
    WorkspaceIndex × List (Str × Str) :=
  let (index, affected) := index.removeShardEntries shard.fileId
  let affected := sortDedup (affected ++ shard.definitions.map definitionKey)
  ({ index with
    shards := index.shards.insert shard.fileId shard
    definitions := sortDefinitionBuckets
      (pushPointers index.definitions (pointersOf shard.fileId shard)) affected }, affected)

/-- `replace_shard`. -/
def WorkspaceIndex.replaceShard (index : WorkspaceIndex) (shard : FileIndexShard) :
    WorkspaceIndex :=
  (index.replaceShardEntries shard).1

/-- `remove_shard`. -/
def WorkspaceIndex.removeShard (index : WorkspaceIndex) (fileId : Nat) : WorkspaceIndex :=
  let (index, affected) := index.removeShardEntries fileId
  { index with definitions := sortDefinitionBuckets index.definitions affected }

/-- `replace_shard_resolved`. -/
def WorkspaceIndex.replaceShardResolved (index : WorkspaceIndex) (shard : FileIndexShard)
    (priorities : Priorities) : WorkspaceIndex :=
  let (index, affected) := index.replaceShardEntries shard
  index.resolveDefinitionBuckets affected priorities

/-- `remove_shard_resolved`. -/
def WorkspaceIndex.removeShardResolved (index : WorkspaceIndex) (fileId : Nat)
    (priorities : Priorities) : WorkspaceIndex :=
  let (index, affected) := index.removeShardEntries fileId
  index.resolveDefinitionBuckets affected priorities

/-! ## Replays -/

mutual

/-- The derived equality of template items. -/
def itemBeq : TemplateItem TextRange → TemplateItem TextRange → Bool
  | .recover left, .recover right => left == right
  | .property key range operator value, .property key' range' operator' value' =>
    key == key' && range == range' && operator == operator' && valueBeq value value'
  | .bareValue left, .bareValue right => left == right
  | .conditional name negated range items, .conditional name' negated' range' items' =>
    name == name' && negated == negated' && range == range' && itemsBeq items items'
  | _, _ => false

def itemsBeq : List (TemplateItem TextRange) → List (TemplateItem TextRange) → Bool
  | [], [] => true
  | left :: lefts, right :: rights => itemBeq left right && itemsBeq lefts rights
  | _, _ => false

def valueBeq : TemplateValue TextRange → TemplateValue TextRange → Bool
  | .scalar left, .scalar right => left == right
  | .block range items, .block range' items' => range == range' && itemsBeq items items'
  | _, _ => false

end

def templateBeq : Option (Template TextRange) → Option (Template TextRange) → Bool
  | none, none => true
  | some left, some right =>
    left.source == right.source && left.kind == right.kind && left.name == right.name &&
      left.definitionRange == right.definitionRange && left.bodyRange == right.bodyRange &&
      itemsBeq left.items right.items
  | _, _ => false

def summaryBeq (left right : DynamicDefinitionSummary) : Bool :=
  left.kind == right.kind && left.name == right.name && left.definitionRange ==
    right.definitionRange && left.parameters == right.parameters &&
    templateBeq left.template right.template

/-- `same_symbol_facts`. -/
def sameSymbolFacts (left right : FileIndexShard) : Bool :=
  left.definitions == right.definitions &&
    (left.dynamicDefinitions.length == right.dynamicDefinitions.length &&
      (left.dynamicDefinitions.zip right.dynamicDefinitions).all fun p => summaryBeq p.1 p.2) &&
    left.definitionAttributes == right.definitionAttributes && left.flagWrites == right.flagWrites

/-- One shard of a replay, with whether its handle is the one that the index has; and whether the
flag writes have changed. -/
def replayShard (priorities : Priorities) (state : WorkspaceIndex × Bool)
    (entry : FileIndexShard × Bool) : WorkspaceIndex × Bool :=
  let (index, flagsChanged) := state
  let (shard, isSame) := entry
  match index.shards[shard.fileId]? with
  | none => (index.replaceShardResolved shard priorities, true)
  | some previous =>
    if isSame = true then (index, flagsChanged)
    else
      let flagsChanged := flagsChanged || previous.flagWrites != shard.flagWrites
      if sameSymbolFacts previous shard = true then
        ({ index with
          positionRanges := removeFile index.positionRanges shard.fileId
          shards := index.shards.insert shard.fileId shard }, flagsChanged)
      else (index.replaceShardResolved shard priorities, flagsChanged)

/-- `replace_replayed_shards_cancellable`. -/
def WorkspaceIndex.replaceReplayedShards (index : WorkspaceIndex)
    (shards : List (FileIndexShard × Bool)) (priorities : Priorities) : WorkspaceIndex :=
  let (index, flagsChanged) := shards.foldl (replayShard priorities) (index, false)
  if flagsChanged = true then
    { index with
      flagWrites := index.shards.toList.foldl (fun flagWrites p => recordShard flagWrites p.2) ∅ }
  else index

/-! ## Lookups -/

section

variable (index : WorkspaceIndex)

/-- `definition_bucket`. -/
def WorkspaceIndex.definitionBucket (kind name : Str) : List DefinitionPointer :=
  index.definitions.bucket (kind, lookupName name)

/-- The definition of a pointer with its state. -/
def WorkspaceIndex.withState (pointer : DefinitionPointer) : Option (Definition × Bool) :=
  (definitionAt index.shards pointer).map fun definition => (definition, pointer.active)

/-- `definitions_with_state`. -/
def WorkspaceIndex.definitionsWithState (kind name : Str) : List (Definition × Bool) :=
  (index.definitionBucket kind name).filterMap index.withState

/-- `definitions`. -/
def WorkspaceIndex.definitionsFor (kind name : Str) : List Definition :=
  (index.definitionBucket kind name).filterMap (definitionAt index.shards)

/-- `active_definition`. -/
def WorkspaceIndex.activeDefinition (kind name : Str) : Option Definition :=
  match ((index.definitionsWithState kind name).filter Prod.snd).map Prod.fst with
  | [] => none
  | definition :: more =>
    if more.all fun candidate =>
        candidate.fileId == definition.fileId && candidate.range == definition.range then
      some definition
    else none

/-- All pointers in the order of kinds and names. -/
def WorkspaceIndex.pointers : List DefinitionPointer :=
  index.definitions.toList.flatMap fun (_, byName) => byName.toList.flatMap Prod.snd

/-- `definitions_iter`. -/
def WorkspaceIndex.definitionsIter : List Definition :=
  index.pointers.filterMap (definitionAt index.shards)

/-- `definition_identities`. -/
def WorkspaceIndex.definitionIdentities : List (Definition × Bool) :=
  index.pointers.filterMap index.withState

/-- The pointers of one kind: the entries from it on, as long as they are of it. -/
def WorkspaceIndex.pointersForKind (kind : Str) : List DefinitionPointer :=
  ((index.definitions.toList.filter fun entry => compare kind entry.1 != .gt).takeWhile fun entry =>
    entry.1 == kind).flatMap fun (_, byName) => byName.toList.flatMap Prod.snd

/-- `definitions_for_kind`. -/
def WorkspaceIndex.definitionsForKind (kind : Str) : List Definition :=
  (index.pointersForKind kind).filterMap (definitionAt index.shards)

/-- `definitions_for_kind_with_state`. -/
def WorkspaceIndex.definitionsForKindWithState (kind : Str) : List (Definition × Bool) :=
  (index.pointersForKind kind).filterMap index.withState

/-- `definition_kinds`. -/
def WorkspaceIndex.definitionKinds : List Str := index.definitions.toList.map Prod.fst

/-- `definitions_for_file_with_state`. -/
def WorkspaceIndex.definitionsForFileWithState (fileId : Nat) : List (Definition × Bool) :=
  (index.shards[fileId]?).toList.flatMap fun shard =>
    shard.definitions.zipIdx.map fun (definition, ordinal) =>
      (definition,
        ((index.definitionBucket definition.kind definition.name).find? fun pointer =>
          pointer.fileId == fileId && pointer.ordinal == ordinal).any DefinitionPointer.active)

/-- `references`. -/
def WorkspaceIndex.references (fileId : Nat) : List Reference :=
  (index.shards[fileId]?).elim [] FileIndexShard.references

/-- `references_iter`. -/
def WorkspaceIndex.referencesIter : List (Nat × Reference) :=
  index.shards.toList.flatMap fun (_, shard) =>
    shard.references.map fun reference => (shard.fileId, reference)

/-- `active_dynamic_definition`. -/
def WorkspaceIndex.activeDynamicDefinition (kind name : Str) : Option DynamicDefinitionSummary := do
  let definition ← index.activeDefinition kind name
  let shard ← index.shards[definition.fileId]?
  shard.dynamicDefinitions.find? fun summary => summary.isFor kind name definition.range

/-- `active_definition_attributes`. -/
def WorkspaceIndex.activeDefinitionAttributes (kind name : Str) : Option DefinitionAttributes := do
  let definition ← index.activeDefinition kind name
  let shard ← index.shards[definition.fileId]?
  shard.definitionAttributes.find? fun attributes =>
    attributes.definitionRange == definition.range && eqIgnoreAsciiCase attributes.kind kind &&
      eqIgnoreAsciiCase attributes.name name

/-- `flag_write_index`. -/
def WorkspaceIndex.flagWriteIndex (kind : Str) : Option FlagWriteIndex :=
  index.flagWrites[toAsciiLowercase kind]?

/-- `flag_write_membership`. -/
def WorkspaceIndex.flagWriteMembership (kind member : Str) : FlagWriteMembership :=
  (index.flagWriteIndex kind).elim .unknown fun view => view.membership member

end

end ParadoxCode.Workspace
