import ParadoxCode.Workspace.Host

/-!
# What an operation on documents does

Every operation replaces or removes one document, may lower the open documents again and may refresh
the previews of one file. A file is overlaid by the open documents of its path, and an operation
turns the overlay of at most one file on or off.
-/

namespace ParadoxCode.Workspace

open Engine Engine.Store Format
open Index (LocalisationPreview)

variable {platform : Platform} {Parsed : Type}

/-! ## Overlaid files -/

/-- The file whose live text is in a document. -/
def overlaidFile (paths : platform.Path → Option Nat)
    (document : Option (DocumentSnapshot platform Parsed)) : Option Nat :=
  document.bind fun document =>
    if document.source = .overlay then document.path.bind paths else none

/-- A file is overlaid by another document. -/
def OpenElsewhere (host : AnalysisHost platform Parsed) (id : Str) (fileId : Nat) : Prop :=
  ∃ other, other ≠ id ∧ overlaidFile host.sourceFilePaths host.documents[other]? = some fileId

theorem mem_overlaySourceFileIds {host : AnalysisHost platform Parsed} {fileId : Nat} :
    fileId ∈ host.overlaySourceFileIds ↔
      ∃ id : Str, overlaidFile host.sourceFilePaths host.documents[id]? = some fileId := by
  unfold AnalysisHost.overlaySourceFileIds
  rw [List.mem_toFinset, List.mem_filterMap]
  constructor
  · rintro ⟨entry, hentry, hfile⟩
    refine ⟨entry.1, ?_⟩
    rw [Std.ExtTreeMap.mem_toList_iff_getElem?_eq_some.mp hentry]
    exact hfile
  · rintro ⟨id, hfile⟩
    obtain ⟨document, hdocument, hpath⟩ := Option.bind_eq_some_iff.mp hfile
    exact ⟨(id, document), Std.ExtTreeMap.mem_toList_iff_getElem?_eq_some.mpr hdocument, hpath⟩

theorem mem_overlaySourceFileIds_iff {host : AnalysisHost platform Parsed} (id : Str)
    {fileId : Nat} :
    fileId ∈ host.overlaySourceFileIds ↔ OpenElsewhere host id fileId ∨
      overlaidFile host.sourceFilePaths host.documents[id]? = some fileId := by
  rw [mem_overlaySourceFileIds]
  constructor
  · rintro ⟨other, hfile⟩
    by_cases hother : other = id
    · exact .inr (hother ▸ hfile)
    · exact .inl ⟨other, hother, hfile⟩
  · rintro (⟨other, -, hfile⟩ | hfile)
    · exact ⟨other, hfile⟩
    · exact ⟨id, hfile⟩

/-- Documents with other facts overlay the same files. -/
theorem SameDocuments.overlaidFile {old new : Documents platform Parsed} (h : SameDocuments old new)
    (paths : platform.Path → Option Nat) (id : Str) :
    overlaidFile paths new[id]? = overlaidFile paths old[id]? := by
  have hrel := h id
  cases hold : old[id]? with
  | none =>
    rw [hold] at hrel
    cases hnew : new[id]? with
    | none => rfl
    | some document =>
      rw [hnew] at hrel
      cases hrel
  | some known =>
    rw [hold] at hrel
    cases hnew : new[id]? with
    | none =>
      rw [hnew] at hrel
      cases hrel
    | some document =>
      rw [hnew] at hrel
      cases hrel with
      | some hrelowered =>
        unfold Workspace.overlaidFile
        rw [Option.bind_some, Option.bind_some, hrelowered.source, hrelowered.path]

/-! ## Outcomes -/

/-- What an operation on one document leaves of a host. -/
structure Outcome (host after : AnalysisHost platform Parsed) (id : Str)
    (document : Option (DocumentSnapshot platform Parsed)) (refreshed : Option Nat) : Prop where
  documents : ∃ documents : Documents platform Parsed,
    (∀ other : Str, documents[other]? = if id = other then document else host.documents[other]?) ∧
      SameDocuments documents after.documents
  sourceFiles : after.sourceFiles = host.sourceFiles
  sourceFilePaths : after.sourceFilePaths = host.sourceFilePaths
  index : after.index = host.index
  scanned : after.scannedLocalisationPreviews = host.scannedLocalisationPreviews
  installed : after.installedLocalisationPreviews = host.installedLocalisationPreviews
  serving : after.localisationPreviews = (HostEnvironment.refreshFile
    { host with documents := after.documents } refreshed).localisationPreviews

variable {env : HostEnvironment platform Parsed} {host : AnalysisHost platform Parsed}

/-- How an operation turns the overlay of a file. -/
inductive Turn where
  | on
  | off
  | kept
  deriving DecidableEq

/-- The files that a document overlays before and after it is turned. -/
def Turn.Of (before after touched : Option Nat) : Turn → Prop
  | .on => before = none ∧ after = touched
  | .off => before = touched ∧ after = none
  | .kept => after = before ∧ touched = none

theorem Outcome.overlaidFile {after : AnalysisHost platform Parsed} {id : Str}
    {document : Option (DocumentSnapshot platform Parsed)} {refreshed : Option Nat}
    (h : Outcome host after id document refreshed) (other : Str) :
    overlaidFile after.sourceFilePaths after.documents[other]? =
      if id = other then overlaidFile host.sourceFilePaths document
      else overlaidFile host.sourceFilePaths host.documents[other]? := by
  obtain ⟨documents, hdocuments, hsame⟩ := h.documents
  rw [hsame.overlaidFile, hdocuments, h.sourceFilePaths]
  split_ifs <;> rfl

theorem Outcome.mem_overlaySourceFileIds_iff {after : AnalysisHost platform Parsed} {id : Str}
    {document : Option (DocumentSnapshot platform Parsed)} {refreshed : Option Nat}
    (h : Outcome host after id document refreshed) {fileId : Nat} :
    fileId ∈ after.overlaySourceFileIds ↔ OpenElsewhere host id fileId ∨
      Workspace.overlaidFile host.sourceFilePaths document = some fileId := by
  rw [Workspace.mem_overlaySourceFileIds_iff id, h.overlaidFile, if_pos rfl]
  have helsewhere : OpenElsewhere after id fileId ↔ OpenElsewhere host id fileId := by
    constructor
    · rintro ⟨other, hne, hfile⟩
      rw [h.overlaidFile, if_neg (Ne.symm hne)] at hfile
      exact ⟨other, hne, hfile⟩
    · rintro ⟨other, hne, hfile⟩
      refine ⟨other, hne, ?_⟩
      rw [h.overlaidFile, if_neg (Ne.symm hne)]
      exact hfile
  rw [helsewhere]

/-- The overlay of a file is kept unless the operation turns it and no other document has it. -/
theorem Outcome.kept_iff {after : AnalysisHost platform Parsed} {id : Str}
    {document : Option (DocumentSnapshot platform Parsed)} {refreshed touched : Option Nat}
    (h : Outcome host after id document refreshed) {turn : Turn}
    (hturns : turn.Of (Workspace.overlaidFile host.sourceFilePaths host.documents[id]?)
      (Workspace.overlaidFile host.sourceFilePaths document) touched) (fileId : Nat) :
    (fileId ∈ after.overlaySourceFileIds ↔ fileId ∈ host.overlaySourceFileIds) ↔
      (touched = some fileId → OpenElsewhere host id fileId) := by
  rw [h.mem_overlaySourceFileIds_iff, Workspace.mem_overlaySourceFileIds_iff id]
  cases turn with
  | on =>
    rw [hturns.1, hturns.2]
    simp only [reduceCtorEq, or_false]
    tauto
  | off =>
    rw [hturns.1, hturns.2]
    simp only [reduceCtorEq, or_false]
    tauto
  | kept =>
    rw [hturns.1, hturns.2]
    simp only [reduceCtorEq, false_imp_iff]

/-! ## Each operation -/

theorem sameDocuments_withDocuments (documents : Documents platform Parsed) (relower : Bool) :
    SameDocuments documents (env.withDocuments host documents relower).documents := by
  unfold HostEnvironment.withDocuments HostEnvironment.relowered
  dsimp only
  split_ifs
  · exact .refl documents
  · exact sameDocuments_stabilizeOverlayFacts env.frontend documents _ _ _
  · exact .refl documents

/-- The outcome of replacing or removing one document. -/
theorem outcome_finish {id : Str} {document : Option (DocumentSnapshot platform Parsed)}
    {documents : Documents platform Parsed} (hdocuments : ∀ other : Str, documents[other]? =
      if id = other then document else host.documents[other]?)
    (relower declares : Bool) (refreshed : Option Nat) :
    Outcome host
      ((HostEnvironment.refreshFile (env.withDocuments host documents relower) refreshed).finish
        declares).1 id document refreshed := by
  have hsame : SameDocuments documents (env.withDocuments host documents relower).documents :=
    sameDocuments_withDocuments documents relower
  cases declares <;> cases refreshed <;>
    exact ⟨⟨documents, hdocuments, hsame⟩, rfl, rfl, rfl, rfl, rfl, rfl⟩

/-- The documents behind a close, with what is restored of the closed one. -/
theorem getElem?_restored (id other : Str) (restored : Option (DocumentSnapshot platform Parsed)) :
    (restored.elim (host.documents.erase id) ((host.documents.erase id).insert id))[other]? =
      if id = other then restored else host.documents[other]? := by
  cases restored with
  | none =>
    rw [Option.elim_none, Std.ExtTreeMap.getElem?_erase]
    simp only [Std.compare_eq_iff_eq]
  | some document =>
    rw [Option.elim_some, getElem?_insert_document, Std.ExtTreeMap.getElem?_erase]
    simp only [Std.compare_eq_iff_eq]
    split_ifs <;> rfl

namespace DocumentOperation

/-- The document of an operation. -/
def document : DocumentOperation platform Parsed → Str
  | .openDocument id .. | .stageOpenDocument id .. | .stageDocumentText id .. => id
  | .commitPreparedDocument prepared => prepared.document.id
  | .applyDocumentChanges id .. | .closeDocument id _ | .openDiskDocument id .. => id

/-- The file whose overlay an operation turns on or off. -/
def touched (host : AnalysisHost platform Parsed) : DocumentOperation platform Parsed → Option Nat
  | .openDocument _ _ _ path | .stageOpenDocument _ _ _ path => path.bind host.sourceFilePaths
  | .closeDocument id _ =>
    host.documents[id]?.bind fun current => current.path.bind host.sourceFilePaths
  | _ => none

def turn : DocumentOperation platform Parsed → Turn
  | .openDocument .. | .stageOpenDocument .. => .on
  | .closeDocument .. => .off
  | _ => .kept

/-- The file whose previews an operation refreshes. -/
def refreshed (host : AnalysisHost platform Parsed)
    (operation : DocumentOperation platform Parsed) : Option Nat :=
  match operation with
  | .stageOpenDocument .. => none
  | _ => operation.touched host

/-- The document that an operation puts in place, before documents are lowered again. -/
def placed (env : HostEnvironment platform Parsed) (host : AnalysisHost platform Parsed) :
    DocumentOperation platform Parsed → Option (DocumentSnapshot platform Parsed)
  | .openDocument id version text path =>
    some (env.documentSnapshot host id (some version) text .overlay path)
  | .stageOpenDocument id version text path => some (stagedOverlayDocument id version text path)
  | .stageDocumentText id version text =>
    host.documents[id]?.map fun current => stagedOverlayDocument id version text current.path
  | .commitPreparedDocument prepared => some prepared.document
  | .applyDocumentChanges id version changes =>
    host.documents[id]?.bind fun current =>
      (changes.foldlM (HostEnvironment.applyChange id) current.text).toOption.map fun text =>
        env.documentSnapshot host id (some version) text .overlay current.path
  | .closeDocument id onDisk =>
    host.documents[id]?.bind fun current => current.path.bind fun path => onDisk.map fun text =>
      env.documentSnapshot { host with documents := host.documents.erase id } id none text
        .disk (some path)
  | .openDiskDocument id path onDisk =>
    onDisk.map fun text => env.documentSnapshot host id none text .disk (some path)

/-- The document that an operation replaces and looks at; a commit does not look at it. -/
def withdrawn (host : AnalysisHost platform Parsed) :
    DocumentOperation platform Parsed → Option (DocumentSnapshot platform Parsed)
  | .stageDocumentText id .. | .applyDocumentChanges id .. | .closeDocument id _ =>
      host.documents[id]?
  | _ => none

/-- A document that is put in place or withdrawn declares dynamic definitions. -/
def announces (env : HostEnvironment platform Parsed) (host : AnalysisHost platform Parsed)
    (operation : DocumentOperation platform Parsed) : Bool :=
  (operation.withdrawn host).any env.declaresDynamicDefinitions ||
    (operation.placed env host).any env.declaresDynamicDefinitions

end DocumentOperation

theorem overlaidFile_of_not_open {paths : platform.Path → Option Nat}
    {document : Option (DocumentSnapshot platform Parsed)}
    (h : ¬ (document.any fun document => decide (document.source = .overlay)) = true) :
    overlaidFile paths document = none := by
  cases document with
  | none => rfl
  | some document =>
    unfold overlaidFile
    rw [Option.bind_some, if_neg]
    intro hoverlay
    exact h (decide_eq_true hoverlay)

theorem overlaidFile_of_overlay {paths : platform.Path → Option Nat}
    {document : DocumentSnapshot platform Parsed} (h : document.source = .overlay) :
    overlaidFile paths (some document) = document.path.bind paths :=
  if_pos h

theorem toOption_eq_some_iff {ε α : Type} {x : Except ε α} {a : α} : x.toOption = some a ↔
    x = .ok a := by
  cases x with
  | error e => exact ⟨fun h => (nomatch h), fun h => (nomatch h)⟩
  | ok b => exact ⟨fun h => congrArg _ (Option.some.inj h),
      fun h => congrArg some (Except.ok.inj h)⟩

theorem openVersion_eq_ok {id : Str} {version : Int} {current : DocumentSnapshot platform Parsed}
    (h : HostEnvironment.openVersion host id version = .ok current) :
    host.documents[id]? = some current ∧ current.source = .overlay := by
  unfold HostEnvironment.openVersion at h
  split at h
  · cases h
  next known hknown =>
    dsimp only at h
    split_ifs at h with hsource hversion
    obtain rfl := Except.ok.inj h
    exact ⟨hknown, not_not.mp hsource⟩

/-- A document that is not parsed declares nothing. -/
theorem declares_staged (id : Str) (version : Int) (text : Str) (path : Option platform.Path) :
    env.declaresDynamicDefinitions (stagedOverlayDocument id version text path) = false := rfl

/-- What an operation that is not refused does: it puts a document in place, may lower the open ones
again and refreshes the previews of one file. -/
structure DocumentOperation.Runs (env : HostEnvironment platform Parsed)
    (host : AnalysisHost platform Parsed) (operation : DocumentOperation platform Parsed)
    (result : AnalysisHost platform Parsed × Bool) : Prop where
  result : ∃ documents relower,
    (∀ other : Str, documents[other]? =
      if operation.document = other then operation.placed env host else host.documents[other]?) ∧
    result = (HostEnvironment.refreshFile (env.withDocuments host documents relower)
      (operation.refreshed host)).finish (operation.announces env host)
  turns : operation.turn.Of (overlaidFile host.sourceFilePaths host.documents[operation.document]?)
    (overlaidFile host.sourceFilePaths (operation.placed env host)) (operation.touched host)

theorem DocumentOperation.run_spec {operation : DocumentOperation platform Parsed}
    {result : AnalysisHost platform Parsed × Bool} (h : operation.run env host = some result) :
    operation.Runs env host result := by
  cases operation with
  | openDocument id version text path =>
    simp only [DocumentOperation.run, HostEnvironment.openDocument] at h
    split_ifs at h with hopen
    · cases h
    · exact ⟨⟨_, _, (getElem?_insert_document id · _), (Option.some.inj h).symm⟩,
        overlaidFile_of_not_open hopen, rfl⟩
  | stageOpenDocument id version text path =>
    simp only [DocumentOperation.run, HostEnvironment.stageOpenDocument] at h
    split_ifs at h with hopen
    · cases h
    · exact ⟨⟨_, _, (getElem?_insert_document id · _), (Option.some.inj h).symm⟩,
        overlaidFile_of_not_open hopen, rfl⟩
  | stageDocumentText id version text =>
    obtain ⟨current, hcurrent, hok⟩ := Except.bind_eq_ok_iff.mp (toOption_eq_some_iff.mp h)
    obtain ⟨hknown, hoverlay⟩ := openVersion_eq_ok hcurrent
    have hplaced : (DocumentOperation.stageDocumentText id version text).placed env host =
        some (stagedOverlayDocument id version text current.path) := by
      show host.documents[id]?.map _ = _
      rw [hknown, Option.map_some]
    have hwithdrawn : (DocumentOperation.stageDocumentText id version text).withdrawn host =
      some current := hknown
    have hannounces : (DocumentOperation.stageDocumentText id version text).announces env host =
        env.declaresDynamicDefinitions current := by
      unfold DocumentOperation.announces
      rw [hplaced, hwithdrawn, Option.any_some, Option.any_some, declares_staged, Bool.or_false]
    refine ⟨⟨host.documents.insert id (stagedOverlayDocument id version text current.path),
      current.hir.isSome && HostEnvironment.contributesSymbolFacts host current,
        fun other => ?_, ?_⟩, ?_⟩
    · rw [hplaced]
      exact getElem?_insert_document id other _
    · rw [hannounces]
      exact (Except.ok.inj hok).symm
    · rw [hplaced]
      refine ⟨?_, rfl⟩
      show _ = overlaidFile _ host.documents[id]?
      rw [hknown]
      exact (overlaidFile_of_overlay rfl).trans (overlaidFile_of_overlay hoverlay).symm
  | commitPreparedDocument prepared =>
    simp only [DocumentOperation.run, HostEnvironment.commitPreparedDocument] at h
    split at h
    · cases h
    next current hcurrent =>
      split_ifs at h with hmatches
      refine ⟨⟨_, _, (getElem?_insert_document prepared.document.id · _), (Option.some.inj h).symm⟩,
        ?_, rfl⟩
      show overlaidFile _ (some prepared.document) = overlaidFile _
        host.documents[prepared.document.id]?
      rw [hcurrent, overlaidFile_of_overlay hmatches.1, hmatches.2.2.2]
      exact overlaidFile_of_overlay prepared.isOverlay
  | applyDocumentChanges id version changes =>
    obtain ⟨current, hcurrent, hok⟩ := Except.bind_eq_ok_iff.mp (toOption_eq_some_iff.mp h)
    obtain ⟨text, htext, hok⟩ := Except.bind_eq_ok_iff.mp hok
    obtain ⟨hknown, hoverlay⟩ := openVersion_eq_ok hcurrent
    have hplaced : (DocumentOperation.applyDocumentChanges id version changes).placed env host =
        some (env.documentSnapshot host id (some version) text .overlay current.path) := by
      show host.documents[id]?.bind _ = _
      rw [hknown, Option.bind_some, htext]
      rfl
    have hwithdrawn : (DocumentOperation.applyDocumentChanges id version changes).withdrawn host =
      some current := hknown
    have hannounces : (DocumentOperation.applyDocumentChanges id version changes).announces env
      host =
        (env.declaresDynamicDefinitions current || env.declaresDynamicDefinitions
          (env.documentSnapshot host id (some version) text .overlay current.path)) := by
      unfold DocumentOperation.announces
      rw [hplaced, hwithdrawn, Option.any_some, Option.any_some]
    refine ⟨⟨host.documents.insert id (env.documentSnapshot host id (some version) text .overlay
      current.path), HostEnvironment.contributesSymbolFacts host current ||
      HostEnvironment.contributesSymbolFacts host
        (env.documentSnapshot host id (some version) text .overlay current.path),
          fun other => ?_, ?_⟩, ?_⟩
    · rw [hplaced]
      exact getElem?_insert_document id other _
    · rw [hannounces]
      exact (Except.ok.inj hok).symm
    · rw [hplaced]
      refine ⟨?_, rfl⟩
      show _ = overlaidFile _ host.documents[id]?
      rw [hknown]
      exact (overlaidFile_of_overlay rfl).trans (overlaidFile_of_overlay hoverlay).symm
  | closeDocument id onDisk =>
    simp only [DocumentOperation.run, HostEnvironment.closeDocument] at h
    split at h
    · cases h
    next current hcurrent =>
      split_ifs at h with hoverlay
      · cases h
      · have hplaced : (DocumentOperation.closeDocument id onDisk).placed env host =
            current.path.bind fun path => onDisk.map fun text => env.documentSnapshot
              { host with documents := host.documents.erase id } id none text .disk
                (some path) := by
          show host.documents[id]?.bind _ = _
          rw [hcurrent, Option.bind_some]
        have hrefreshed : (DocumentOperation.closeDocument id onDisk).refreshed host =
            current.path.bind host.sourceFilePaths := by
          show host.documents[id]?.bind _ = _
          rw [hcurrent, Option.bind_some]
        have hwithdrawn : (DocumentOperation.closeDocument id onDisk).withdrawn host =
          some current := hcurrent
        have hannounces : (DocumentOperation.closeDocument id onDisk).announces env host =
            (env.declaresDynamicDefinitions current ||
              ((DocumentOperation.closeDocument id onDisk).placed env host).any
                env.declaresDynamicDefinitions) := by
          unfold DocumentOperation.announces
          rw [hwithdrawn, Option.any_some]
        refine ⟨⟨((DocumentOperation.closeDocument id onDisk).placed env host).elim
          (host.documents.erase id)
            ((host.documents.erase id).insert id),
          HostEnvironment.contributesSymbolFacts host current,
            fun other => getElem?_restored id other _, ?_⟩,
          ?_, ?_⟩
        · rw [hannounces, hplaced, hrefreshed]
          exact (Option.some.inj h).symm
        · show overlaidFile _ host.documents[id]? = host.documents[id]?.bind _
          rw [hcurrent]
          exact overlaidFile_of_overlay (not_not.mp hoverlay)
        · rw [hplaced]
          cases current.path with
          | none => rfl
          | some path =>
            cases onDisk with
            | none => rfl
            | some text => rfl
  | openDiskDocument id path onDisk =>
    simp only [DocumentOperation.run, HostEnvironment.openDiskDocument] at h
    split_ifs at h with hknown
    obtain ⟨text, rfl, hok⟩ := Option.map_eq_some_iff.mp h
    refine ⟨⟨_, _, (getElem?_insert_document id · _), hok.symm⟩, ?_, rfl⟩
    show none = overlaidFile _ host.documents[id]?
    rw [Std.ExtTreeMap.getElem?_eq_none_of_contains_eq_false
      (Bool.eq_false_iff.mpr fun hcontains => hknown (.inl hcontains))]
    rfl

/-- The outcome of an operation that is not refused. -/
theorem DocumentOperation.Runs.outcome {operation : DocumentOperation platform Parsed}
    {result : AnalysisHost platform Parsed × Bool} (h : operation.Runs env host result) :
    Outcome host result.1 operation.document (operation.placed env host)
      (operation.refreshed host) := by
  obtain ⟨documents, relower, hdocuments, rfl⟩ := h.result
  exact outcome_finish hdocuments relower _ _

end ParadoxCode.Workspace
