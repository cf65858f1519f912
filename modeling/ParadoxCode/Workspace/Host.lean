import ParadoxCode.Workspace.OverlayFacts

/-!
# The host

`AnalysisHost` of `host.rs`: the open documents, the scanned files, the localisation previews that
are served for them and the lineages of the query cache, with the operations that change them. What
is read from the disk is an input of an operation; the index and the file states that a scan or a
replay leaves are inputs too. Nothing is cancelled.
-/

namespace ParadoxCode.Workspace

open Engine Engine.Store Format
open Index (LocalisationPreview sortEntries)

instance decidableEqPath : (platform : Platform) → DecidableEq platform.Path
  | .unix | .other => inferInstanceAs (DecidableEq (List UInt8))
  | .windows => inferInstanceAs (DecidableEq (List UInt16))

/-- The derived equality of source files. -/
def sameSourceFile {platform : Platform} (a b : SourceFile platform) : Bool :=
  a.id == b.id && a.rootId == b.rootId && decide (a.physicalPath = b.physicalPath) &&
    a.logicalPath == b.logicalPath && a.categoryId == b.categoryId &&
      decide (a.resolution = b.resolution)

/-! ## Localisation previews -/

/-- The entries of one file in range order. -/
structure PreviewEntries where
  entries : List (TextRange × LocalisationPreview)
  sorted : entries.Pairwise fun left right => left.1.Precedes right.1

/-- `replace_file_shared`. -/
def replaceFileShared (map : FileMap LocalisationPreview) (fileId : Nat)
    (entries : Option PreviewEntries) : FileMap LocalisationPreview :=
  match entries with
  | none => removeFile map fileId
  | some shared =>
    if h : shared.entries = [] then removeFile map fileId
    else
      { byFile := map.byFile.insert fileId shared.entries
        nonempty id := by
          rw [NatMap.getElem?_insert]
          split_ifs
          · exact fun heq => h (Option.some.inj heq)
          · exact map.nonempty id
        sorted id entries hentries := by
          rw [NatMap.getElem?_insert] at hentries
          split_ifs at hentries
          · rw [← Option.some.inj hentries]
            exact shared.sorted
          · exact map.sorted id entries hentries }

/-- `retain_files`. -/
def retainFiles {α : Type} (map : FileMap α) (keep : Nat → Bool) : FileMap α where
  byFile := map.byFile.filter fun fileId _ => keep fileId
  nonempty id := by
    rw [NatMap.getElem?_filter map.byFile keep]
    split_ifs
    · exact map.nonempty id
    · exact fun h => nomatch h
  sorted id entries h := by
    rw [NatMap.getElem?_filter map.byFile keep] at h
    split_ifs at h
    exact map.sorted id entries h

theorem insertEntry_ne_nil {α : Type} (entry : TextRange × α) (entries : List (TextRange × α)) :
    Index.insertEntry entry entries ≠ [] := by
  cases entries with
  | nil => exact List.cons_ne_nil _ _
  | cons other entries =>
    unfold Index.insertEntry
    split_ifs <;> exact List.cons_ne_nil _ _

theorem sortEntries_append_ne_nil {α : Type} (entries : List (TextRange × α))
    {added : List (TextRange × α)} (h : added ≠ []) : sortEntries (entries ++ added) ≠ [] := by
  obtain ⟨front, last, rfl⟩ := (List.eq_nil_or_concat added).resolve_left h
  unfold sortEntries
  rw [List.concat_eq_append, ← List.append_assoc, List.foldl_append]
  exact insertEntry_ne_nil last _

/-- What `merge_shared` makes of the entries of a file. -/
def mergeEntries {α : Type} : Option (List (TextRange × α)) → Option (List (TextRange × α)) →
    Option (List (TextRange × α))
  | existing, none => existing
  | none, some added => some added
  | some existing, some added => some (sortEntries (existing ++ added))

/-- `merge`. -/
def mergeFiles {α : Type} (map other : FileMap α) : FileMap α where
  byFile := map.byFile ∪ other.byFile.map fun fileId added =>
    (mergeEntries map.byFile[fileId]? (some added)).getD []
  nonempty id := by
    rw [Std.ExtTreeMap.getElem?_union, Std.ExtTreeMap.getElem?_map]
    cases hadded : other.byFile[id]? with
    | none => exact map.nonempty id
    | some added =>
      have hne : added ≠ [] := fun heq => other.nonempty id (heq ▸ hadded)
      cases map.byFile[id]? with
      | none => exact fun heq => hne (Option.some.inj heq)
      | some existing =>
        exact fun heq => sortEntries_append_ne_nil existing hne (Option.some.inj heq)
  sorted id entries h := by
    rw [Std.ExtTreeMap.getElem?_union, Std.ExtTreeMap.getElem?_map] at h
    cases hadded : other.byFile[id]? with
    | none =>
      rw [hadded] at h
      exact map.sorted id entries h
    | some added =>
      rw [hadded] at h
      obtain rfl := Option.some.inj h
      cases map.byFile[id]? with
      | none => exact other.sorted id added hadded
      | some existing => exact sortEntries_sorted _

/-! ## Operations on documents -/

/-- `SnapshotQueryCache`: the watermarks of its lineages. -/
structure SnapshotQueryCache where
  indexRevision : Option Nat := none
  documentsRevision : Option Nat := none
  definitionsRevision : Option Nat := none
  deriving DecidableEq

/-- A watermark that moves to a greater revision. -/
def watermark (mark : Option Nat) (revision : Nat) : Option Nat :=
  if (mark.all fun current => decide (current < revision)) = true then some revision else mark

structure HostFileState where
  source : Str
  revision : Nat
  shard : FileIndexShard
  /-- The cached previews, or those of the retained tree. -/
  localisationPreviews : Option PreviewEntries

/-- The scanned files by identity. -/
abbrev SourceFiles (platform : Platform) : Type := Std.ExtTreeMap Nat (SourceFile platform)

abbrev FileStates : Type := Std.ExtTreeMap Nat HostFileState

structure AnalysisHost (platform : Platform) (Parsed : Type) where
  revision : Nat
  documents : Documents platform Parsed
  sourceFiles : SourceFiles platform
  sourceFilePaths : platform.Path → Option Nat
  fileStates : FileStates
  index : WorkspaceIndex
  scannedLocalisationPreviews : FileMap LocalisationPreview
  installedLocalisationPreviews : FileMap LocalisationPreview
  localisationPreviews : FileMap LocalisationPreview
  queryCache : SnapshotQueryCache

/-- What a host is configured with. -/
structure HostEnvironment (platform : Platform) (Parsed : Type) where
  frontend : Frontend platform Parsed
  /-- `ir.files.is_empty()`. -/
  irFilesEmpty : Bool
  /-- `RuleSet::dynamic_definition_context`. -/
  dynamicDefinitionContext : Str → Option Str
  /-- `build_file_state_with_ir`, without its tree. -/
  buildFileState : SourceFile platform → Str → Nat → HostFileState
  /-- `empty_file_state`. -/
  emptyFileState : SourceFile platform → Nat → HostFileState
  /-- Whether the previews of a file are of the target language. -/
  isRetained : Option (SourceFile platform) → Bool

inductive DocumentError where
  | alreadyOpen (document : Str)
  | notOpen (document : Str)
  | staleVersion (document : Str) (current received : Int)
  | invalidRange (document : Str) (range : TextRange)
  deriving DecidableEq

/-- A candidate that was prepared outside of the host; only open documents are prepared. -/
structure PreparedDocument (platform : Platform) (Parsed : Type) where
  document : DocumentSnapshot platform Parsed
  isOverlay : document.source = .overlay

structure TextChange where
  range : Option TextRange
  text : Str
  deriving DecidableEq

namespace AnalysisHost

variable {platform : Platform} {Parsed : Type}

/-- `AnalysisHost::empty`. -/
def empty : AnalysisHost platform Parsed where
  revision := 0
  documents := ∅
  sourceFiles := ∅
  sourceFilePaths := fun _ => none
  fileStates := ∅
  index := .empty
  scannedLocalisationPreviews := noEntries _
  installedLocalisationPreviews := noEntries _
  localisationPreviews := noEntries _
  queryCache := {}

variable (host : AnalysisHost platform Parsed)

/-- The files whose live text is in an open document. -/
def overlaySourceFileIds : Finset Nat :=
  (host.documents.toList.filterMap fun entry =>
    if entry.2.source = .overlay then entry.2.path.bind host.sourceFilePaths else none).toFinset

/-- `rebuild_serving_localisation_previews`: what it serves. -/
def rebuiltLocalisationPreviews : FileMap LocalisationPreview :=
  mergeFiles (retainFiles host.scannedLocalisationPreviews fun fileId =>
    decide (fileId ∉ host.overlaySourceFileIds)) host.installedLocalisationPreviews

def rebuildServingLocalisationPreviews : AnalysisHost platform Parsed :=
  { host with localisationPreviews := host.rebuiltLocalisationPreviews }

/-- `refresh_serving_previews_for_file`. -/
def refreshServingPreviewsForFile (fileId : Nat) : AnalysisHost platform Parsed :=
  let stillOverlaid := host.documents.toList.any fun entry =>
    decide (entry.2.source = .overlay ∧ entry.2.path.bind host.sourceFilePaths = some fileId)
  let serving := host.localisationPreviews
  { host with
    localisationPreviews :=
      if stillOverlaid = true then removeFile serving fileId
      else
        replaceFileShared serving fileId
          (match h : host.scannedLocalisationPreviews.byFile[fileId]? with
          | none => none
          | some entries => some ⟨entries, host.scannedLocalisationPreviews.sorted
              fileId entries h⟩) }

/-- `u64::saturating_add(1)`. -/
def nextRevision (revision : Nat) : Nat := min (revision + 1) (2 ^ 64 - 1)

/-- `advance_revision`, with `SnapshotQueryCache::advance_to`. -/
def advanceRevision : AnalysisHost platform Parsed :=
  let revision := nextRevision host.revision
  { host with
    revision := revision
    queryCache :=
      ⟨watermark host.queryCache.indexRevision revision,
        watermark host.queryCache.documentsRevision revision,
        watermark host.queryCache.definitionsRevision revision⟩ }

/-- `advance_document_revision`, with `SnapshotQueryCache::advance_documents`. -/
def advanceDocumentRevision : AnalysisHost platform Parsed :=
  let revision := nextRevision host.revision
  { host with
    revision := revision
    queryCache :=
      { host.queryCache with
        documentsRevision := watermark host.queryCache.documentsRevision revision } }

/-- `SnapshotQueryCache::advance_definitions` at the revision of the host. -/
def advanceDefinitions : AnalysisHost platform Parsed :=
  { host with
    queryCache :=
      { host.queryCache with
        definitionsRevision := watermark host.queryCache.definitionsRevision host.revision } }

/-- How an operation on documents ends; and whether the definitions lineage has advanced. -/
def finish (declaresDynamicDefinitions : Bool) : AnalysisHost platform Parsed × Bool :=
  let host := host.advanceDocumentRevision
  (if declaresDynamicDefinitions = true then host.advanceDefinitions else host,
    declaresDynamicDefinitions)

end AnalysisHost

/-- The function `overlay_source_file_ids`, over the files. -/
def overlayFilesOf {platform : Platform} {Parsed : Type} (documents : Documents platform Parsed)
    (files : SourceFiles platform) : Finset Nat :=
  (documents.toList.filterMap fun entry =>
    if entry.2.source = .overlay then
      entry.2.path.bind fun path =>
        (files.toList.find? fun file => decide (file.2.physicalPath = path)).map Prod.fst
    else none).toFinset

/-- `source_file_paths`: the first file of a path. -/
def sourceFilePathsOf {platform : Platform} (files : SourceFiles platform) (path : platform.Path) :
    Option Nat :=
  (files.toList.find? fun file => decide (file.2.physicalPath = path)).map Prod.fst

namespace HostEnvironment

variable {platform : Platform} {Parsed : Type} (env : HostEnvironment platform Parsed)
  (host : AnalysisHost platform Parsed)

/-- `document_declares_dynamic_definitions`. -/
def declaresDynamicDefinitions (document : DocumentSnapshot platform Parsed) : Bool :=
  document.hir.any fun hir => hir.definitions.any fun definition =>
    (env.dynamicDefinitionContext definition.kind).isSome

/-- `document_contributes_symbol_facts`. -/
def contributesSymbolFacts (document : DocumentSnapshot platform Parsed) : Bool :=
  (document.hir.any fun hir => !hir.definitions.isEmpty || !hir.definitionAttributes.isEmpty) ||
    (decide (document.source = .overlay) &&
      ((document.path.bind host.sourceFilePaths).bind fun fileId => host.fileStates[fileId]?).any
        fun state => !state.shard.definitions.isEmpty || !state.shard.definitionAttributes.isEmpty)

/-- `document_snapshot`. -/
def documentSnapshot (id : Str) (version : Option Int) (text : Str) (source : DocumentSource)
    (path : Option platform.Path) : DocumentSnapshot platform Parsed :=
  let preliminary := env.frontend.prepareDocumentSnapshot none
    (unparsedDocument id version text source path)
  let overlays := overlayTrees host.documents ++ preliminary.hir.toList
  let overlayFiles := overlayFilesOf host.documents host.sourceFiles
  let overlayFiles :=
    match preliminary.source, preliminary.path.bind host.sourceFilePaths with
    | .overlay, some fileId => insert fileId overlayFiles
    | _, _ => overlayFiles
  env.frontend.prepareDocumentSnapshot (some ⟨host.index, overlays, overlayFiles⟩) preliminary

/-- `relower_documents_with_overlay_facts`: the documents it leaves. -/
def relowered (documents : Documents platform Parsed) : Documents platform Parsed :=
  if env.irFilesEmpty = true then documents
  else
    env.frontend.stabilizeOverlayFacts documents host.index
      (overlayFilesOf documents host.sourceFiles) {}

/-- The host with other documents, lowered again where it is asked for. -/
def withDocuments (documents : Documents platform Parsed) (relower : Bool) :
    AnalysisHost platform Parsed :=
  { host with documents := if relower = true then env.relowered host documents else documents }

/-- The previews of a file whose overlay state has changed. -/
def refreshFile (fileId : Option Nat) : AnalysisHost platform Parsed :=
  match fileId with
  | some fileId => host.refreshServingPreviewsForFile fileId
  | none => host

/-- `open_document`. -/
def openDocument (id : Str) (version : Int) (text : Str) (path : Option platform.Path) :
    Except DocumentError (AnalysisHost platform Parsed × Bool) :=
  if (host.documents[id]?.any fun document => decide (document.source = .overlay)) = true then
    .error (.alreadyOpen id)
  else
    let document := env.documentSnapshot host id (some version) text .overlay path
    let declares := env.declaresDynamicDefinitions document
    let contributes := contributesSymbolFacts host document
    let overlayFile := document.path.bind host.sourceFilePaths
    let host := env.withDocuments host (host.documents.insert id document) contributes
    .ok ((refreshFile host overlayFile).finish declares)

/-- `stage_open_document`. -/
def stageOpenDocument (id : Str) (version : Int) (text : Str) (path : Option platform.Path) :
    Except DocumentError (AnalysisHost platform Parsed × Bool) :=
  if (host.documents[id]?.any fun document => decide (document.source = .overlay)) = true then
    .error (.alreadyOpen id)
  else
    let document := stagedOverlayDocument id version text path
    let host := env.withDocuments host (host.documents.insert id document) true
    .ok (host.finish false)

/-- The open document that a newer version is for. -/
def openVersion (id : Str) (version : Int) : Except DocumentError
    (DocumentSnapshot platform Parsed) :=
  match host.documents[id]? with
  | none => .error (.notOpen id)
  | some current =>
    if current.source ≠ .overlay then .error (.notOpen id)
    else
      let currentVersion := current.version.getD version
      if version ≤ currentVersion then .error (.staleVersion id currentVersion version)
      else .ok current

/-- `stage_document_text`. -/
def stageDocumentText (id : Str) (version : Int) (text : Str) :
    Except DocumentError (AnalysisHost platform Parsed × Bool) := do
  let current ← openVersion host id version
  let declares := env.declaresDynamicDefinitions current
  let contributes := current.hir.isSome && contributesSymbolFacts host current
  let document := stagedOverlayDocument id version text current.path
  let host := env.withDocuments host (host.documents.insert id document) contributes
  .ok (host.finish declares)

/-- `AnalysisSnapshot::prepare_document`. -/
def prepareDocument (id : Str) : Option (PreparedDocument platform Parsed) :=
  host.documents[id]?.bind fun document =>
    if h : document.source = .overlay then
      some ⟨env.frontend.prepareDocumentSnapshot none document, h⟩
    else none

/-- `commit_prepared_document`; `none` where the candidate is not the current text. -/
def commitPreparedDocument (prepared : PreparedDocument platform Parsed) :
    Option (AnalysisHost platform Parsed × Bool) :=
  let id := prepared.document.id
  match host.documents[id]? with
  | none => none
  | some current =>
    if current.source = .overlay ∧ current.version = prepared.document.version ∧
        current.text = prepared.document.text ∧ current.path = prepared.document.path then
      let declares := env.declaresDynamicDefinitions prepared.document
      let contributes := contributesSymbolFacts host prepared.document
      let host := env.withDocuments host (host.documents.insert id prepared.document)
        (contributes || !env.irFilesEmpty)
      some (host.finish declares)
    else none

/-- One change of `apply_document_changes`. -/
def applyChange (id : Str) (text : Str) (change : TextChange) : Except DocumentError Str :=
  match change.range with
  | none => .ok change.text
  | some range =>
    match getText text 0 range.start, getText text range.start range.stop,
        getText text range.stop (byteLen text) with
    | some front, some _, some back => .ok (front ++ change.text ++ back)
    | _, _, _ => .error (.invalidRange id range)

/-- `apply_document_changes`. -/
def applyDocumentChanges (id : Str) (version : Int) (changes : List TextChange) :
    Except DocumentError (AnalysisHost platform Parsed × Bool) := do
  let current ← openVersion host id version
  let text ← changes.foldlM (applyChange id) current.text
  let document := env.documentSnapshot host id (some version) text .overlay current.path
  let declares := env.declaresDynamicDefinitions current || env.declaresDynamicDefinitions document
  let contributes := contributesSymbolFacts host current || contributesSymbolFacts host document
  let host := env.withDocuments host (host.documents.insert id document) contributes
  .ok (host.finish declares)

/-- `close_document`; `onDisk` is the text of the file where it can be read. -/
def closeDocument (id : Str) (onDisk : Option Str) :
    Except DocumentError (AnalysisHost platform Parsed × Bool) :=
  match host.documents[id]? with
  | none => .error (.notOpen id)
  | some current =>
    if current.source ≠ .overlay then .error (.notOpen id)
    else
      let contributes := contributesSymbolFacts host current
      let overlayFile := current.path.bind host.sourceFilePaths
      let closed := { host with documents := host.documents.erase id }
      let restored := current.path.bind fun path => onDisk.map fun text =>
        env.documentSnapshot closed id none text .disk (some path)
      let declares := env.declaresDynamicDefinitions current ||
        restored.any env.declaresDynamicDefinitions
      let documents := restored.elim closed.documents (closed.documents.insert id)
      let host := env.withDocuments host documents contributes
      .ok ((refreshFile host overlayFile).finish declares)

/-- `open_disk_document`; `none` where it returns `false`. -/
def openDiskDocument (id : Str) (path : platform.Path) (onDisk : Option Str) :
    Option (AnalysisHost platform Parsed × Bool) :=
  if host.documents.contains id = true ∨ (host.sourceFilePaths path).isNone = true then none
  else
    onDisk.map fun text =>
      let document := env.documentSnapshot host id none text .disk (some path)
      let declares := env.declaresDynamicDefinitions document
      (env.withDocuments host (host.documents.insert id document) false).finish declares

end HostEnvironment

/-- An operation on documents, with what it reads from the disk. -/
inductive DocumentOperation (platform : Platform) (Parsed : Type) where
  | openDocument (id : Str) (version : Int) (text : Str) (path : Option platform.Path)
  | stageOpenDocument (id : Str) (version : Int) (text : Str) (path : Option platform.Path)
  | stageDocumentText (id : Str) (version : Int) (text : Str)
  | commitPreparedDocument (prepared : PreparedDocument platform Parsed)
  | applyDocumentChanges (id : Str) (version : Int) (changes : List TextChange)
  | closeDocument (id : Str) (onDisk : Option Str)
  | openDiskDocument (id : Str) (path : platform.Path) (onDisk : Option Str)

/-- The host behind an operation, and whether the definitions lineage has advanced; `none` where the
operation is refused. -/
def DocumentOperation.run {platform : Platform} {Parsed : Type}
    (env : HostEnvironment platform Parsed) (host : AnalysisHost platform Parsed) :
    DocumentOperation platform Parsed → Option (AnalysisHost platform Parsed × Bool)
  | .openDocument id version text path => (env.openDocument host id version text path).toOption
  | .stageOpenDocument id version text path =>
      (env.stageOpenDocument host id version text path).toOption
  | .stageDocumentText id version text => (env.stageDocumentText host id version text).toOption
  | .commitPreparedDocument prepared => env.commitPreparedDocument host prepared
  | .applyDocumentChanges id version changes =>
    (env.applyDocumentChanges host id version changes).toOption
  | .closeDocument id onDisk => (env.closeDocument host id onDisk).toOption
  | .openDiskDocument id path onDisk => env.openDiskDocument host id path onDisk

end ParadoxCode.Workspace
