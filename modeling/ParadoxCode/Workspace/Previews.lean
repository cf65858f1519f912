import ParadoxCode.Lib.Trace
import ParadoxCode.Workspace.Outcome

/-!
# The served localisation previews

The host serves the previews of the scanned files that no open document overlays and, in front of
them, those of installed caches. Installing a cache and a scan rebuild what is served; opening and
closing a document and a change on the disk patch the files they touch.
-/

namespace ParadoxCode.Workspace

open Engine Engine.Store Format
open Index (LocalisationPreview)

/-! ## Lookups -/

section Lookups

theorem FileMap.ext_byFile {α : Type} {a b : FileMap α}
    (h : ∀ fileId : Nat, a.byFile[fileId]? = b.byFile[fileId]?) : a = b := by
  have hbyFile : a.byFile = b.byFile := Std.ExtTreeMap.ext_getElem? h
  cases a
  cases b
  cases hbyFile
  rfl

theorem removeFile_byFile {α : Type} (map : FileMap α) (fileId other : Nat) :
    (removeFile map fileId).byFile[other]? = if fileId = other then none else
      map.byFile[other]? := by
  show (map.byFile.erase fileId)[other]? = _
  rw [Std.ExtTreeMap.getElem?_erase]
  simp only [Std.compare_eq_iff_eq]

theorem retainFiles_byFile {α : Type} (map : FileMap α) (keep : Nat → Bool) (fileId : Nat) :
    (retainFiles map keep).byFile[fileId]? = if keep fileId = true then
      map.byFile[fileId]? else none :=
  NatMap.getElem?_filter map.byFile keep fileId

theorem mergeFiles_byFile {α : Type} (map other : FileMap α) (fileId : Nat) :
    (mergeFiles map other).byFile[fileId]? =
      mergeEntries map.byFile[fileId]? other.byFile[fileId]? := by
  show (map.byFile ∪ other.byFile.map _)[fileId]? = _
  rw [Std.ExtTreeMap.getElem?_union, Std.ExtTreeMap.getElem?_map]
  cases other.byFile[fileId]? with
  | none =>
    cases map.byFile[fileId]? <;> rfl
  | some added =>
    cases map.byFile[fileId]? <;> rfl

/-- The entries that a handle leaves in a map. -/
def PreviewEntries.kept (entries : Option PreviewEntries) :
    Option (List (TextRange × LocalisationPreview)) :=
  entries.bind fun shared => if shared.entries = [] then none else some shared.entries

theorem replaceFileShared_byFile (map : FileMap LocalisationPreview) (fileId : Nat)
    (entries : Option PreviewEntries) (other : Nat) :
    (replaceFileShared map fileId entries).byFile[other]? =
      if fileId = other then PreviewEntries.kept entries else map.byFile[other]? := by
  unfold replaceFileShared PreviewEntries.kept
  cases entries with
  | none => exact removeFile_byFile map fileId other
  | some shared =>
    dsimp only
    rw [Option.bind_some]
    split_ifs with hnil heq heq
    · rw [removeFile_byFile, if_pos heq]
    · rw [removeFile_byFile, if_neg heq]
    · rw [NatMap.getElem?_insert, if_pos heq]
    · rw [NatMap.getElem?_insert, if_neg heq]

end Lookups

variable {platform : Platform} {Parsed : Type}

namespace AnalysisHost

variable (host : AnalysisHost platform Parsed)

/-- The scanned entries of a file that may be served. -/
def scannedFor (fileId : Nat) : Option (List (TextRange × LocalisationPreview)) :=
  if fileId ∈ host.overlaySourceFileIds then none else
    host.scannedLocalisationPreviews.byFile[fileId]?

/-- The installed entries of a file. -/
def installedFor (fileId : Nat) : Option (List (TextRange × LocalisationPreview)) :=
  host.installedLocalisationPreviews.byFile[fileId]?

/-- What is served is what a rebuild computes. -/
def InStep : Prop := host.localisationPreviews = host.rebuiltLocalisationPreviews

theorem rebuilt_byFile (fileId : Nat) : host.rebuiltLocalisationPreviews.byFile[fileId]? =
    mergeEntries (host.scannedFor fileId) (host.installedFor fileId) := by
  unfold rebuiltLocalisationPreviews scannedFor installedFor
  rw [mergeFiles_byFile, retainFiles_byFile]
  simp only [decide_not, Bool.not_eq_true', decide_eq_false_iff_not]
  split_ifs <;> rfl

theorem inStep_iff : host.InStep ↔ ∀ fileId : Nat, host.localisationPreviews.byFile[fileId]? =
    mergeEntries (host.scannedFor fileId) (host.installedFor fileId) := by
  constructor
  · intro h fileId
    rw [← host.rebuilt_byFile, ← h]
  · intro h
    refine FileMap.ext_byFile fun fileId => ?_
    rw [h, host.rebuilt_byFile]

theorem refresh_byFile (fileId other : Nat) :
    (host.refreshServingPreviewsForFile fileId).localisationPreviews.byFile[other]? =
      if fileId = other then host.scannedFor fileId else
        host.localisationPreviews.byFile[other]? := by
  have hoverlaid : (host.documents.toList.any fun entry => decide (entry.2.source = .overlay ∧
      entry.2.path.bind host.sourceFilePaths = some fileId)) = true ↔
        fileId ∈ host.overlaySourceFileIds := by
    unfold overlaySourceFileIds
    rw [List.any_eq_true, List.mem_toFinset, List.mem_filterMap]
    simp only [decide_eq_true_eq, ite_eq_iff, reduceCtorEq, and_false, or_false]
  unfold refreshServingPreviewsForFile scannedFor
  dsimp only
  by_cases hoverlay : fileId ∈ host.overlaySourceFileIds
  · rw [if_pos (hoverlaid.mpr hoverlay), if_pos hoverlay, removeFile_byFile]
  · rw [if_neg fun h => hoverlay (hoverlaid.mp h), if_neg hoverlay, replaceFileShared_byFile]
    congr 1
    split
    next hnone => rw [hnone]; rfl
    next entries hentries =>
      have hne : entries ≠ [] := fun hnil =>
        host.scannedLocalisationPreviews.nonempty fileId (hnil ▸ hentries)
      exact (if_neg hne).trans hentries.symm

variable {host}

theorem inStep_of_noEntries (hscanned : host.scannedLocalisationPreviews = noEntries _)
    (hinstalled : host.installedLocalisationPreviews = noEntries _)
    (hserving : host.localisationPreviews = noEntries _) : host.InStep := by
  have hnone : ∀ fileId : Nat, (noEntries LocalisationPreview).byFile[fileId]? =
    none := fun fileId =>
    Std.ExtTreeMap.getElem?_empty
  rw [inStep_iff]
  intro fileId
  unfold scannedFor installedFor
  rw [hscanned, hinstalled, hserving, hnone, ite_self]
  rfl

theorem inStep_empty : (empty : AnalysisHost platform Parsed).InStep :=
  inStep_of_noEntries rfl rfl rfl

end AnalysisHost

/-! ## Operations on the workspace -/

/-- What an event of the disk comes to once its path has been looked at: nothing, a file that is
gone or without a category, or a file with what can be read of it. -/
inductive DiskEvent (platform : Platform) where
  | skipped
  | gone (id : Nat) (path : platform.Path)
  | asset (file : SourceFile platform)
  | text (file : SourceFile platform) (contents : Option Str)

/-- The tables of a disk update and the files it changes. -/
structure DiskUpdate (platform : Platform) where
  sourceFiles : SourceFiles platform
  sourceFilePaths : platform.Path → Option Nat
  fileStates : FileStates
  previewFiles : List Nat

namespace HostEnvironment

variable (env : HostEnvironment platform Parsed)

/-- A file of the disk, where its state is not the known one; `none` on a collision of
identities. -/
def updateFile (update : DiskUpdate platform) (file : SourceFile platform)
    (contents : Option (Option Str)) : Option (DiskUpdate platform) :=
  if (update.sourceFiles[file.id]?.any fun existing =>
      decide (existing.physicalPath ≠ file.physicalPath)) = true then none
  else
    match contents with
    | some none => some update
    | _ =>
      let text := contents.join
      if ((update.sourceFiles[file.id]?.any fun known => sameSourceFile known file) &&
          update.fileStates[file.id]?.any fun state =>
            text.all fun text => state.source == text) = true then some update
      else
        let revision := (update.fileStates[file.id]?.map fun state => state.revision + 1).getD 0
        let state := match text with
          | some text => env.buildFileState file text revision
          | none => env.emptyFileState file revision
        some
          { sourceFiles := update.sourceFiles.insert file.id file
            sourceFilePaths := Function.update update.sourceFilePaths file.physicalPath
              (some file.id)
            fileStates := update.fileStates.insert file.id state
            previewFiles := update.previewFiles ++ [file.id] }

/-- One event of `apply_disk_file_changes`. -/
def applyDiskEvent (update : DiskUpdate platform) : DiskEvent platform →
    Option (DiskUpdate platform)
  | .skipped => some update
  | .gone id path =>
    if update.sourceFiles.contains id = true then
      some
        { sourceFiles := update.sourceFiles.erase id
          sourceFilePaths := Function.update update.sourceFilePaths path none
          fileStates := update.fileStates.erase id
          previewFiles := update.previewFiles ++ [id] }
    else some update
  | .asset file => env.updateFile update file none
  | .text file contents => env.updateFile update file (some contents)

/-- `scanned_entries_handle_for_state`. -/
def scannedEntries (state : HostFileState) (file : Option (SourceFile platform)) :
    Option PreviewEntries :=
  if env.isRetained file = true then state.localisationPreviews else none

/-- The scanned entries of a file in the tables. -/
def scannedEntriesOf (sourceFiles : SourceFiles platform) (fileStates : FileStates) (fileId : Nat) :
    Option PreviewEntries :=
  fileStates[fileId]?.bind fun state => env.scannedEntries state sourceFiles[fileId]?

/-- The tables behind the events. -/
def diskUpdate (host : AnalysisHost platform Parsed) (events : List (DiskEvent platform)) :
    Option (DiskUpdate platform) :=
  events.foldlM env.applyDiskEvent ⟨host.sourceFiles, host.sourceFilePaths, host.fileStates, []⟩

/-- The host with the tables of a disk update. -/
def withUpdate (host : AnalysisHost platform Parsed) (update : DiskUpdate platform)
    (replay : FileStates → FileStates) : AnalysisHost platform Parsed :=
  let fileStates := replay update.fileStates
  { host with
    sourceFiles := update.sourceFiles
    sourceFilePaths := update.sourceFilePaths
    fileStates := fileStates
    scannedLocalisationPreviews := update.previewFiles.foldl (fun scanned fileId =>
      replaceFileShared scanned fileId (env.scannedEntriesOf update.sourceFiles fileStates fileId))
        host.scannedLocalisationPreviews }

/-- `apply_disk_file_changes`: `replay` is what becomes of the files whose facts are read again. -/
def applyDiskFileChanges (host : AnalysisHost platform Parsed) (events : List (DiskEvent platform))
    (replay : FileStates → FileStates) (index : WorkspaceIndex) :
    Option (AnalysisHost platform Parsed) :=
  (env.diskUpdate host events).map fun update =>
    -- an event that changes a table also names its file
    if update.previewFiles = [] then host
    else
      let host := update.previewFiles.foldl AnalysisHost.refreshServingPreviewsForFile
        (env.withUpdate host update replay)
      { host with index := index }.advanceRevision

/-- `install_index_caches`, with the files and the retained previews of the caches; `none` on a
collision of identities. -/
def installIndexCaches (host : AnalysisHost platform Parsed) (files : SourceFiles platform)
    (previews : FileMap LocalisationPreview) (index : WorkspaceIndex) :
    Option (AnalysisHost platform Parsed) :=
  if (host.sourceFiles.toList.any fun entry => files.contains entry.1) = true then none
  else
    let sourceFiles := files ∪ host.sourceFiles
    let host := { host with
      scannedLocalisationPreviews := retainFiles host.scannedLocalisationPreviews fun fileId =>
        !previews.byFile.contains fileId
      sourceFiles := sourceFiles
      sourceFilePaths := sourceFilePathsOf sourceFiles
      index := index
      installedLocalisationPreviews := mergeFiles host.installedLocalisationPreviews previews }
    some host.rebuildServingLocalisationPreviews.advanceRevision

/-- `refresh_source_roots`, with what the scan has found. -/
def refreshSourceRoots (host : AnalysisHost platform Parsed) (files : SourceFiles platform)
    (fileStates : FileStates) (index : WorkspaceIndex) : AnalysisHost platform Parsed :=
  let host := { host with
    sourceFiles := files
    sourceFilePaths := sourceFilePathsOf files
    fileStates := fileStates
    scannedLocalisationPreviews := fileStates.toList.foldl
      (fun scanned (entry : Nat × HostFileState) =>
      replaceFileShared scanned entry.1 (env.scannedEntries entry.2 files[entry.1]?))
        (noEntries _) }
  { host.rebuildServingLocalisationPreviews with index := index }.advanceRevision

/-- `apply_change` with other source roots. -/
def setSourceRoots (host : AnalysisHost platform Parsed) : AnalysisHost platform Parsed :=
  { host with
    scannedLocalisationPreviews := noEntries _
    installedLocalisationPreviews := noEntries _
    localisationPreviews := noEntries _ }.advanceRevision

end HostEnvironment

/-- An operation of the host, with what it finds on the disk. -/
inductive HostOperation (platform : Platform) (Parsed : Type) where
  | document (operation : DocumentOperation platform Parsed)
  | applyDiskFileChanges (events : List (DiskEvent platform)) (replay : FileStates → FileStates)
    (index : WorkspaceIndex)
  | installIndexCaches (files : SourceFiles platform) (previews : FileMap LocalisationPreview)
    (index : WorkspaceIndex)
  | refreshSourceRoots (files : SourceFiles platform) (fileStates : FileStates)
      (index : WorkspaceIndex)
  | setSourceRoots

namespace HostOperation

variable (env : HostEnvironment platform Parsed) (host : AnalysisHost platform Parsed)

/-- The host behind an operation that is not refused. -/
def run : HostOperation platform Parsed → Option (AnalysisHost platform Parsed)
  | .document operation => (operation.run env host).map Prod.fst
  | .applyDiskFileChanges events replay index => env.applyDiskFileChanges host events replay index
  | .installIndexCaches files previews index => HostEnvironment.installIndexCaches host files
      previews index
  | .refreshSourceRoots files fileStates index =>
    some (env.refreshSourceRoots host files fileStates index)
  | .setSourceRoots => some (HostEnvironment.setSourceRoots host)

/-- A refused operation changes nothing. -/
def step (operation : HostOperation platform Parsed) : AnalysisHost platform Parsed :=
  (operation.run env host).getD host

/-! ## Conditions -/

/-- The entries of a scan that the installed entries do not all replace. -/
def Covers (installed scanned : Option (List (TextRange × LocalisationPreview))) : Prop :=
  mergeEntries scanned installed = installed

/-- The installed entries are all among those of a scan. -/
def AddsNothing (installed scanned : Option (List (TextRange × LocalisationPreview))) : Prop :=
  mergeEntries scanned installed = scanned

end HostOperation

/-- Whether the operation on a document leaves what is served in step: a document that is staged
over a file finds the file open or all its scanned entries replaced by installed ones; one that is
opened finds no installed entries; and behind one that is closed the installed entries add nothing
to what is restored. -/
def DocumentOperation.ServesAlike (host : AnalysisHost platform Parsed)
    (operation : DocumentOperation platform Parsed) : Prop :=
  ∀ fileId, operation.touched host = some fileId →
    match operation with
    | .stageOpenDocument .. => OpenElsewhere host operation.document fileId ∨
        HostOperation.Covers (host.installedFor fileId)
          host.scannedLocalisationPreviews.byFile[fileId]?
    | .openDocument .. => host.installedFor fileId = none
    | _ =>
      (OpenElsewhere host operation.document fileId → host.installedFor fileId = none) ∧
        (¬ OpenElsewhere host operation.document fileId → HostOperation.AddsNothing
          (host.installedFor fileId) host.scannedLocalisationPreviews.byFile[fileId]?)

namespace DocumentOperation

variable {env : HostEnvironment platform Parsed} {host after : AnalysisHost platform Parsed}

theorem mergeEntries_none_left {α : Type} (entries : Option (List (TextRange × α))) :
    mergeEntries none entries = entries := by
  cases entries <;> rfl

/-- A host with the same previews whose overlaid files are known serves in step where every file
does. -/
theorem inStep_outcome_iff {id : Str} {document : Option (DocumentSnapshot platform Parsed)}
    {refreshed : Option Nat} (houtcome : Outcome host after id document refreshed)
    (h : host.InStep) :
    after.InStep ↔ ∀ fileId : Nat,
      (if refreshed = some fileId then after.scannedFor fileId
        else mergeEntries (host.scannedFor fileId) (host.installedFor fileId)) =
      mergeEntries (after.scannedFor fileId) (host.installedFor fileId) := by
  have hscanned : ∀ fileId, after.scannedFor fileId = ({ host with documents := after.documents } :
      AnalysisHost platform Parsed).scannedFor fileId := by
    intro fileId
    unfold AnalysisHost.scannedFor AnalysisHost.overlaySourceFileIds
    rw [houtcome.scanned, houtcome.sourceFilePaths]
  have hinstalled : ∀ fileId, after.installedFor fileId = host.installedFor fileId := by
    intro fileId
    unfold AnalysisHost.installedFor
    rw [houtcome.installed]
  have hserving : ∀ fileId : Nat, after.localisationPreviews.byFile[fileId]? =
      if refreshed = some fileId then after.scannedFor fileId
      else mergeEntries (host.scannedFor fileId) (host.installedFor fileId) := by
    intro fileId
    rw [houtcome.serving, ← host.inStep_iff.mp h fileId]
    cases refreshed with
    | none => rfl
    | some refreshed =>
      show (AnalysisHost.refreshServingPreviewsForFile _
        refreshed).localisationPreviews.byFile[fileId]? = _
      rw [AnalysisHost.refresh_byFile]
      simp only [Option.some.injEq]
      split_ifs with heq
      · rw [hscanned, heq]
      · rfl
  rw [AnalysisHost.inStep_iff]
  refine forall_congr' fun fileId => ?_
  rw [hserving, hinstalled]

/-- What is served stays in step exactly if the operation meets its condition. -/
theorem inStep_operation_iff {operation : DocumentOperation platform Parsed} {advanced : Bool}
    (hrun : operation.run env host = some (after, advanced)) (h : host.InStep) :
    after.InStep ↔ operation.ServesAlike host := by
  have hruns := run_spec hrun
  have houtcome := hruns.outcome
  have hturns := hruns.turns
  rw [inStep_outcome_iff houtcome h]
  refine forall_congr' fun fileId => ?_
  have hafter : after.scannedFor fileId = if fileId ∈ after.overlaySourceFileIds then none
      else host.scannedLocalisationPreviews.byFile[fileId]? := by
    unfold AnalysisHost.scannedFor
    rw [houtcome.scanned]
  by_cases htouched : operation.touched host = some fileId
  · have hon : fileId ∈ after.overlaySourceFileIds ↔ _ := houtcome.mem_overlaySourceFileIds_iff
    have hoff : fileId ∈ host.overlaySourceFileIds ↔ _ :=
      mem_overlaySourceFileIds_iff operation.document
    cases operation with
    | openDocument id version text path =>
      have hmem : fileId ∈ after.overlaySourceFileIds := hon.mpr (.inr (hturns.2.trans htouched))
      rw [if_pos (by exact htouched), hafter, if_pos hmem, mergeEntries_none_left, eq_comm]
      exact ⟨fun hnone _ => hnone, fun hserves => hserves htouched⟩
    | stageOpenDocument id version text path =>
      have hmem : fileId ∈ after.overlaySourceFileIds := hon.mpr (.inr (hturns.2.trans htouched))
      have helsewhere : fileId ∈ host.overlaySourceFileIds ↔ OpenElsewhere host id fileId := by
        rw [hoff, hturns.1]
        simp only [reduceCtorEq, or_false]
        rfl
      rw [if_neg (fun heq => nomatch heq), hafter, if_pos hmem, mergeEntries_none_left]
      unfold AnalysisHost.scannedFor
      by_cases hin : fileId ∈ host.overlaySourceFileIds
      · rw [if_pos hin, mergeEntries_none_left]
        exact iff_of_true rfl fun _ => .inl (helsewhere.mp hin)
      · rw [if_neg hin]
        exact ⟨fun hcovers _ => .inr hcovers,
          fun hserves => (hserves htouched).resolve_left fun hother => hin (helsewhere.mpr hother)⟩
    | closeDocument id onDisk =>
      have helsewhere : fileId ∈ after.overlaySourceFileIds ↔ OpenElsewhere host id fileId := by
        rw [hon, hturns.2]
        simp only [reduceCtorEq, or_false]
        rfl
      rw [if_pos (by exact htouched), hafter, eq_comm]
      by_cases hin : fileId ∈ after.overlaySourceFileIds
      · have hother := helsewhere.mp hin
        rw [if_pos hin, mergeEntries_none_left]
        exact ⟨fun hnone _ => ⟨fun _ => hnone, fun hnot => absurd hother hnot⟩,
          fun hserves => (hserves htouched).1 hother⟩
      · have hother := fun h => hin (helsewhere.mpr h)
        rw [if_neg hin]
        exact ⟨fun hadds _ => ⟨fun h => absurd h hother, fun _ => hadds⟩,
          fun hserves => (hserves htouched).2 hother⟩
    | stageDocumentText | commitPreparedDocument | applyDocumentChanges | openDiskDocument =>
      cases htouched
  · have hrefreshed : operation.refreshed host ≠ some fileId := by
      cases operation <;> first | exact htouched | exact fun h => nomatch h
    have hsame : after.scannedFor fileId = host.scannedFor fileId := by
      rw [hafter]
      unfold AnalysisHost.scannedFor
      have hkept := (houtcome.kept_iff hturns fileId).mpr fun h => absurd h htouched
      simp only [hkept]
    rw [if_neg hrefreshed, hsame]
    exact iff_of_true rfl fun h => absurd h htouched

end DocumentOperation

/-! ## Updates from the disk -/

/-- A file that is open under other paths. -/
def OpenUnder (host : AnalysisHost platform Parsed) (paths : platform.Path → Option Nat)
    (fileId : Nat) : Prop :=
  ∃ id : Str, overlaidFile paths host.documents[id]? = some fileId

namespace HostOperation

variable {env : HostEnvironment platform Parsed} {host : AnalysisHost platform Parsed}

/-- Serving a file and then the others serves them all. -/
theorem ite_mem_cons {α : Type} (fileId other : Nat) (fileIds : List Nat) (kept served : α) :
    (if other ∈ fileIds then kept else if fileId = other then kept else served) =
      if other ∈ fileId :: fileIds then kept else served := by
  by_cases hin : other ∈ fileIds
  · rw [if_pos hin, if_pos (List.mem_cons_of_mem fileId hin)]
  · rw [if_neg hin]
    by_cases heq : fileId = other
    · rw [if_pos heq, if_pos (heq ▸ List.mem_cons_self)]
    · rw [if_neg heq, if_neg fun hmem => (List.mem_cons.mp hmem).elim (fun h => heq h.symm) hin]

theorem replaceFiles_byFile (entries : Nat → Option PreviewEntries) (fileIds : List Nat)
    (other : Nat) :
    ∀ map : FileMap LocalisationPreview,
      (fileIds.foldl (fun map fileId => replaceFileShared map fileId (entries fileId))
        map).byFile[other]? =
        if other ∈ fileIds then PreviewEntries.kept (entries other) else map.byFile[other]? := by
  induction fileIds with
  | nil => intro map; rfl
  | cons fileId fileIds ih =>
    intro map
    rw [List.foldl_cons, ih, replaceFileShared_byFile, ← ite_mem_cons]
    congr 1
    split_ifs with heq
    · rw [heq]
    · rfl

/-- Refreshing files changes what is served for them only. -/
theorem refreshFiles (fileIds : List Nat) : ∀ host : AnalysisHost platform Parsed,
    ∃ serving : FileMap LocalisationPreview,
      fileIds.foldl AnalysisHost.refreshServingPreviewsForFile host =
        { host with localisationPreviews := serving } ∧
      ∀ other : Nat, serving.byFile[other]? =
        if other ∈ fileIds then host.scannedFor other else
          host.localisationPreviews.byFile[other]? := by
  induction fileIds with
  | nil => intro host; exact ⟨host.localisationPreviews, rfl, fun other => rfl⟩
  | cons fileId fileIds ih =>
    intro host
    obtain ⟨serving, hfold, hserving⟩ := ih (host.refreshServingPreviewsForFile fileId)
    refine ⟨serving, hfold, fun other => ?_⟩
    rw [hserving, AnalysisHost.refresh_byFile, ← ite_mem_cons]
    show (if other ∈ fileIds then host.scannedFor other else _) = _
    congr 1
    split_ifs with heq
    · rw [heq]
    · rfl

/-- Whether a disk update leaves what is served in step: for the files it changes the installed
entries add nothing to what is served, and any other file is open as before or has all its scanned
entries replaced by installed ones. -/
def UpdatesAlike (env : HostEnvironment platform Parsed) (host : AnalysisHost platform Parsed)
    (update : DiskUpdate platform) (replay : FileStates → FileStates) : Prop :=
  ∀ fileId : Nat,
    if fileId ∈ update.previewFiles then
      (OpenUnder host update.sourceFilePaths fileId → host.installedFor fileId = none) ∧
        (¬ OpenUnder host update.sourceFilePaths fileId → AddsNothing (host.installedFor fileId)
          (PreviewEntries.kept (env.scannedEntriesOf update.sourceFiles
            (replay update.fileStates) fileId)))
    else
      (OpenUnder host update.sourceFilePaths fileId ↔ fileId ∈ host.overlaySourceFileIds) ∨
        Covers (host.installedFor fileId) host.scannedLocalisationPreviews.byFile[fileId]?

theorem inStep_update_iff {update : DiskUpdate platform} {replay : FileStates → FileStates}
    (h : host.InStep) :
    (update.previewFiles.foldl AnalysisHost.refreshServingPreviewsForFile
      (env.withUpdate host update replay)).InStep ↔ UpdatesAlike env host update replay := by
  obtain ⟨serving, hfold, hserving⟩ := refreshFiles update.previewFiles
    (env.withUpdate host update replay)
  have hopen : ∀ fileId, fileId ∈ (env.withUpdate host update replay).overlaySourceFileIds ↔
      OpenUnder host update.sourceFilePaths fileId := fun fileId => mem_overlaySourceFileIds
  have hscanned : ∀ fileId, (env.withUpdate host update replay).scannedFor fileId =
      if fileId ∈ (env.withUpdate host update replay).overlaySourceFileIds then none
      else if fileId ∈ update.previewFiles then PreviewEntries.kept
          (env.scannedEntriesOf update.sourceFiles (replay update.fileStates) fileId)
        else host.scannedLocalisationPreviews.byFile[fileId]? := by
    intro fileId
    unfold AnalysisHost.scannedFor
    congr 1
    exact replaceFiles_byFile _ _ _ _
  rw [hfold, AnalysisHost.inStep_iff]
  refine forall_congr' fun fileId => ?_
  show serving.byFile[fileId]? = mergeEntries
    ((env.withUpdate host update replay).scannedFor fileId) (host.installedFor fileId) ↔ _
  rw [hserving]
  by_cases hchanged : fileId ∈ update.previewFiles
  · rw [if_pos hchanged, if_pos hchanged, hscanned, if_pos hchanged, eq_comm]
    by_cases hin : fileId ∈ (env.withUpdate host update replay).overlaySourceFileIds
    · have hunder := (hopen fileId).mp hin
      rw [if_pos hin, DocumentOperation.mergeEntries_none_left]
      exact ⟨fun hnone => ⟨fun _ => hnone, fun hnot => absurd hunder hnot⟩,
        fun hboth => hboth.1 hunder⟩
    · have hunder := fun hu => hin ((hopen fileId).mpr hu)
      rw [if_neg hin]
      exact ⟨fun hadds => ⟨fun hu => absurd hu hunder, fun _ => hadds⟩, fun hboth => hboth.2 hunder⟩
  · rw [if_neg hchanged, if_neg hchanged, hscanned, if_neg hchanged]
    show host.localisationPreviews.byFile[fileId]? = _ ↔ _
    rw [host.inStep_iff.mp h, ← hopen]
    unfold AnalysisHost.scannedFor Covers
    by_cases hin : fileId ∈ (env.withUpdate host update replay).overlaySourceFileIds <;>
      by_cases hwas : fileId ∈ host.overlaySourceFileIds
    · simp only [hin, hwas, if_true, true_or]
    · rw [if_pos hin, if_neg hwas, DocumentOperation.mergeEntries_none_left]
      exact ⟨.inr, fun hor => hor.resolve_left fun hiff => hwas (hiff.mp hin)⟩
    · rw [if_neg hin, if_pos hwas, DocumentOperation.mergeEntries_none_left, eq_comm]
      exact ⟨.inr, fun hor => hor.resolve_left fun hiff => hin (hiff.mpr hwas)⟩
    · simp only [hin, hwas, if_false, true_or]

/-! ## Runs -/

/-- Whether an operation leaves what is served in step. -/
def ServesAlike (env : HostEnvironment platform Parsed) (host : AnalysisHost platform Parsed) :
    HostOperation platform Parsed → Prop
  | .document operation => (operation.run env host).isSome = true → operation.ServesAlike host
  | .applyDiskFileChanges events replay _ => ∀ update, env.diskUpdate host events = some update →
      update.previewFiles ≠ [] → UpdatesAlike env host update replay
  | .installIndexCaches .. | .refreshSourceRoots .. | .setSourceRoots => True

theorem inStep_rebuild (host : AnalysisHost platform Parsed) :
    host.rebuildServingLocalisationPreviews.InStep := rfl

/-- What is served stays in step exactly if the operation meets its condition. -/
theorem inStep_step_iff (h : host.InStep) (operation : HostOperation platform Parsed) :
    (operation.step env host).InStep ↔ operation.ServesAlike env host := by
  unfold step
  cases operation with
  | document operation =>
    show ((operation.run env host).map Prod.fst |>.getD host).InStep ↔
      ((operation.run env host).isSome = true → operation.ServesAlike host)
    cases hrun : operation.run env host with
    | none => exact iff_of_true h fun hsome => nomatch hsome
    | some result =>
      have hiff := DocumentOperation.inStep_operation_iff hrun h
      exact ⟨fun hstep _ => hiff.mp hstep, fun halike => hiff.mpr (halike rfl)⟩
  | applyDiskFileChanges events replay index =>
    show ((env.applyDiskFileChanges host events replay index).getD host).InStep ↔
      ∀ update, env.diskUpdate host events = some update → update.previewFiles ≠ [] →
        UpdatesAlike env host update replay
    unfold HostEnvironment.applyDiskFileChanges
    cases hupdate : env.diskUpdate host events with
    | none => exact iff_of_true h fun update heq => nomatch heq
    | some update =>
      rw [Option.map_some, Option.getD_some]
      split_ifs with hnone
      · refine iff_of_true h fun other heq hne => absurd hnone ?_
        rw [Option.some.inj heq]
        exact hne
      · constructor
        · intro hstep other heq _
          rw [← Option.some.inj heq]
          exact (inStep_update_iff h).mp hstep
        · intro halike
          exact (inStep_update_iff h).mpr (halike update rfl hnone)
  | installIndexCaches files previews index =>
    refine iff_of_true ?_ trivial
    show ((HostEnvironment.installIndexCaches host files previews index).getD host).InStep
    unfold HostEnvironment.installIndexCaches
    split_ifs
    · exact h
    · exact inStep_rebuild _
  | refreshSourceRoots files fileStates index => exact iff_of_true (inStep_rebuild _) trivial
  | setSourceRoots =>
    exact iff_of_true (AnalysisHost.inStep_of_noEntries rfl rfl rfl) trivial

/-- What is served follows the files, the caches and the open documents through a run exactly if
every operation meets its condition. -/
theorem previewsInStep_run_iff (env : HostEnvironment platform Parsed)
    (operations : List (HostOperation platform Parsed)) :
    Trace.Always (fun host operation => some (operation.step env host))
        AnalysisHost.InStep operations
        (.empty : AnalysisHost platform Parsed) ↔
      Trace.Allowed (fun host operation => some (operation.step env host))
        (fun host operation => operation.ServesAlike env host) operations .empty := by
  refine Trace.always_iff_allowed ?_ (fun host h => h) ?_ AnalysisHost.inStep_empty operations
  · intro host operation after h hserves hstep
    rw [← Option.some.inj hstep]
    exact (inStep_step_iff h operation).mpr hserves
  · intro host operation after h hstep hafter
    rw [← Option.some.inj hstep] at hafter
    exact (inStep_step_iff h operation).mp hafter

/-! ## A document over an installed file -/

def titleFile : SourceFile .unix :=
  ⟨1, 0, [47], "localisation/a.yml".toList, none, .merge⟩

def titleFiles : SourceFiles .unix := (∅ : SourceFiles .unix).insert 1 titleFile

def titlePreviews : FileMap LocalisationPreview :=
  replaceFileShared (noEntries _) 1
    (some ⟨[(.sized 0 1, ⟨none, "Title".toList⟩)], List.pairwise_singleton _ _⟩)

def plainEnvironment : HostEnvironment .unix Unit where
  frontend := ⟨fun _ _ => none, fun _ _ => (), fun _ _ _ => (⟨[], [], [], [], [], false, {}⟩, ∅)⟩
  irFilesEmpty := true
  dynamicDefinitionContext _ := none
  buildFileState _ source revision := ⟨source, revision, .empty 1, none⟩
  emptyFileState _ revision := ⟨[], revision, .empty 1, none⟩
  isRetained _ := true

/-- The host that has installed a cache with the file. -/
def titleHost : AnalysisHost .unix Unit :=
  let host : AnalysisHost .unix Unit := { AnalysisHost.empty with
    sourceFiles := titleFiles ∪ ∅
    sourceFilePaths := sourceFilePathsOf (titleFiles ∪ ∅)
    scannedLocalisationPreviews := retainFiles (noEntries _) fun fileId =>
      !titlePreviews.byFile.contains fileId
    installedLocalisationPreviews := mergeFiles (noEntries _) titlePreviews }
  host.rebuildServingLocalisationPreviews.advanceRevision

/-- A document that is opened over a file of an installed cache stops its previews. -/
theorem previewsInStep_run_fails : ¬ ∀ (env : HostEnvironment .unix Unit)
    (operations : List (HostOperation .unix Unit)),
    Trace.Always (fun host operation => some (operation.step env host))
      AnalysisHost.InStep operations
      (.empty : AnalysisHost .unix Unit) := by
  intro h
  have hallowed := (previewsInStep_run_iff plainEnvironment _).mp (h plainEnvironment
    [.installIndexCaches titleFiles titlePreviews .empty,
      .document (.openDocument ['a'] 1 [] (some [47]))])
  obtain ⟨-, hrest⟩ := hallowed _ rfl
  obtain ⟨hserves, -⟩ := hrest _ rfl
  have hinstalled : step plainEnvironment (.empty : AnalysisHost .unix Unit)
      (.installIndexCaches titleFiles titlePreviews .empty) = titleHost := by
    rfl
  rw [hinstalled] at hserves
  have hnone : ∀ id : Str, titleHost.documents[id]? = none :=
    fun id => Std.ExtTreeMap.getElem?_empty
  have hruns : (DocumentOperation.run plainEnvironment titleHost
      (.openDocument ['a'] 1 [] (some [47]))).isSome = true := by
    simp only [DocumentOperation.run, HostEnvironment.openDocument, hnone]
    rfl
  have hfile : titleHost.sourceFilePaths [47] = some 1 := by rfl
  have hentries := hserves hruns 1 hfile
  have htitle : titleHost.installedFor 1 ≠ none := by
    show (mergeFiles (noEntries LocalisationPreview) titlePreviews).byFile[1]? ≠ none
    rw [mergeFiles_byFile, titlePreviews, replaceFileShared_byFile, if_pos rfl]
    intro heq
    cases heq
  exact htitle hentries

end HostOperation

end ParadoxCode.Workspace
