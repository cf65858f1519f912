import ParadoxCode.Workspace.Outcome
import Mathlib.Data.List.Chain

/-!
# Synchronisation of documents

The operations on documents statement by statement, as programs over the host that return early, and
what runs of them keep.

1. A program that returns an error or `false` has changed nothing; one that succeeds leaves what the
   operation computes.
2. The parsed tree and the facts of a document are made of its text, also behind lowering it again.
3. A session keeps what an editor has sent since it opened a document. Runs keep the open documents
at their sessions, whatever candidates come back from workers in between.
-/

namespace ParadoxCode.Workspace

open Engine Engine.Store Format

/-! ## Programs over the host -/

abbrev HostState (platform : Platform) (Parsed α : Type) : Type :=
  StateM (AnalysisHost platform Parsed) α

/-- A program that may return early with an error; what it has changed by then stays. -/
abbrev HostProgram (platform : Platform) (Parsed α : Type) : Type :=
  ExceptT DocumentError (StateM (AnalysisHost platform Parsed)) α

namespace HostProgram

variable {platform : Platform} {Parsed α β : Type}

/-- What a program returns and the host it leaves. -/
def exec (program : HostProgram platform Parsed α) (host : AnalysisHost platform Parsed) :
    Except DocumentError α × AnalysisHost platform Parsed :=
  StateT.run (ExceptT.run program) host

/-- Whether a program succeeds, and the host it leaves. -/
def succeeds (program : HostProgram platform Parsed α) (host : AnalysisHost platform Parsed) :
    Bool × AnalysisHost platform Parsed :=
  ((program.exec host).1.isOk, (program.exec host).2)

variable (host : AnalysisHost platform Parsed)

theorem exec_get_bind (k : AnalysisHost platform Parsed → HostProgram platform Parsed α) :
    (get >>= k).exec host = (k host).exec host := rfl

theorem exec_state_bind (x : HostState platform Parsed β) (k : β → HostProgram platform Parsed α) :
    ((liftM x : HostProgram platform Parsed β) >>= k).exec host =
      (k (StateT.run x host).1).exec (StateT.run x host).2 := rfl

theorem exec_except_bind (x : Except DocumentError β) (k : β → HostProgram platform Parsed α) :
    ((liftM x : HostProgram platform Parsed β) >>= k).exec host =
      match x with
      | .ok b => (k b).exec host
      | .error e => (.error e, host) := by
  cases x <;> rfl

end HostProgram

namespace HostEnvironment

variable {platform : Platform} {Parsed : Type} (env : HostEnvironment platform Parsed)

/-- `insert` into the documents. -/
def insertDocument (id : Str) (document : DocumentSnapshot platform Parsed) :
    HostState platform Parsed Unit :=
  modify fun host => { host with documents := host.documents.insert id document }

/-- `remove` from the documents. -/
def removeDocument (id : Str) : HostState platform Parsed Unit :=
  modify fun host => { host with documents := host.documents.erase id }

/-- `relower_documents_with_overlay_facts`. -/
def relowerDocumentsWithOverlayFacts : HostState platform Parsed Unit :=
  modify fun host => { host with documents := env.relowered host host.documents }

/-- How the operations end. -/
def publish (contributes : Bool) (overlayFile : Option Nat) (declares : Bool) :
    HostState platform Parsed Unit := do
  if contributes = true then env.relowerDocumentsWithOverlayFacts
  if let some fileId := overlayFile then
    modify fun host => host.refreshServingPreviewsForFile fileId
  modify AnalysisHost.advanceDocumentRevision
  if declares = true then modify AnalysisHost.advanceDefinitions

/-- `open_document`, statement by statement. -/
def openDocumentProgram (id : Str) (version : Int) (text : Str) (path : Option platform.Path) :
    HostProgram platform Parsed Unit := do
  let host ← get
  if (host.documents[id]?.any fun document => decide (document.source = .overlay)) = true then
    throw (.alreadyOpen id)
  let document := env.documentSnapshot host id (some version) text .overlay path
  insertDocument id document
  env.publish (contributesSymbolFacts host document) (document.path.bind host.sourceFilePaths)
    (env.declaresDynamicDefinitions document)

/-- `stage_open_document`, statement by statement. -/
def stageOpenDocumentProgram (id : Str) (version : Int) (text : Str) (path : Option platform.Path) :
    HostProgram platform Parsed Unit := do
  let host ← get
  if (host.documents[id]?.any fun document => decide (document.source = .overlay)) = true then
    throw (.alreadyOpen id)
  (insertDocument id (stagedOverlayDocument id version text path) : HostState platform Parsed Unit)
  env.publish true none false

/-- `stage_document_text`, statement by statement. -/
def stageDocumentTextProgram (id : Str) (version : Int) (text : Str) :
    HostProgram platform Parsed Unit := do
  let host ← get
  let current ← openVersion host id version
  (insertDocument id (stagedOverlayDocument id version text current.path) : HostState
    platform Parsed Unit)
  env.publish (current.hir.isSome && contributesSymbolFacts host current) none
    (env.declaresDynamicDefinitions current)

/-- `apply_document_changes`, statement by statement. -/
def applyDocumentChangesProgram (id : Str) (version : Int) (changes : List TextChange) :
    HostProgram platform Parsed Unit := do
  let host ← get
  let current ← openVersion host id version
  let mut text := current.text
  for change in changes do
    text ← applyChange id text change
  let document := env.documentSnapshot host id (some version) text .overlay current.path
  insertDocument id document
  env.publish (contributesSymbolFacts host current || contributesSymbolFacts host document) none
    (env.declaresDynamicDefinitions current || env.declaresDynamicDefinitions document)

/-- `close_document`, statement by statement. -/
def closeDocumentProgram (id : Str) (onDisk : Option Str) : HostProgram platform Parsed Unit := do
  let host ← get
  let some current := host.documents[id]? | throw (.notOpen id)
  if current.source ≠ .overlay then
    throw (.notOpen id)
  (removeDocument id : HostState platform Parsed Unit)
  let closed ← get
  let restored := current.path.bind fun path => onDisk.map fun text =>
    env.documentSnapshot closed id none text .disk (some path)
  if let some document := restored then
    insertDocument id document
  env.publish (contributesSymbolFacts host current) (current.path.bind host.sourceFilePaths)
    (env.declaresDynamicDefinitions current || restored.any env.declaresDynamicDefinitions)

/-- `commit_prepared_document`, statement by statement. -/
def commitPreparedDocumentProgram (prepared : PreparedDocument platform Parsed) :
    HostState platform Parsed Bool := do
  let host ← get
  let some current := host.documents[prepared.document.id]? | return false
  if ¬ (current.source = .overlay ∧ current.version = prepared.document.version ∧
      current.text = prepared.document.text ∧ current.path = prepared.document.path) then
    return false
  insertDocument prepared.document.id prepared.document
  env.publish (contributesSymbolFacts host prepared.document || !env.irFilesEmpty) none
    (env.declaresDynamicDefinitions prepared.document)
  return true

/-- `open_disk_document`, statement by statement. -/
def openDiskDocumentProgram (id : Str) (path : platform.Path) (onDisk : Option Str) :
    HostState platform Parsed Bool := do
  let host ← get
  if host.documents.contains id = true ∨ (host.sourceFilePaths path).isNone = true then
    return false
  let some text := onDisk | return false
  let document := env.documentSnapshot host id none text .disk (some path)
  insertDocument id document
  env.publish false none (env.declaresDynamicDefinitions document)
  return true

end HostEnvironment

/-- Whether an operation succeeds, and the host it leaves. -/
def DocumentOperation.exec {platform : Platform} {Parsed : Type}
    (env : HostEnvironment platform Parsed) (host : AnalysisHost platform Parsed) :
    DocumentOperation platform Parsed → Bool × AnalysisHost platform Parsed
  | .openDocument id version text path =>
    (env.openDocumentProgram id version text path).succeeds host
  | .stageOpenDocument id version text path =>
    (env.stageOpenDocumentProgram id version text path).succeeds host
  | .stageDocumentText id version text =>
    (env.stageDocumentTextProgram id version text).succeeds host
  | .commitPreparedDocument prepared => StateT.run (env.commitPreparedDocumentProgram prepared) host
  | .applyDocumentChanges id version changes =>
    (env.applyDocumentChangesProgram id version changes).succeeds host
  | .closeDocument id onDisk => (env.closeDocumentProgram id onDisk).succeeds host
  | .openDiskDocument id path onDisk => StateT.run (env.openDiskDocumentProgram id path onDisk) host

section Programs

variable {platform : Platform} {Parsed : Type} {env : HostEnvironment platform Parsed}
  {host : AnalysisHost platform Parsed}

/-- What a program returns and leaves, by what its operation computes. -/
def resultOf (host : AnalysisHost platform Parsed) :
    Option (AnalysisHost platform Parsed × Bool) → Bool × AnalysisHost platform Parsed
  | some (after, _) => (true, after)
  | none => (false, host)

namespace HostEnvironment

theorem run_publish (contributes : Bool) (overlayFile : Option Nat) (declares : Bool) :
    StateT.run (env.publish contributes overlayFile declares) host =
      ((), ((refreshFile (env.withDocuments host host.documents contributes) overlayFile).finish
        declares).1) := by
  cases contributes <;> cases overlayFile <;> cases declares <;> rfl

theorem run_get_bind {α : Type} (k : AnalysisHost platform Parsed → HostState platform Parsed α) :
    StateT.run (get >>= k) host = StateT.run (k host) host := rfl

theorem run_state_bind {α β : Type} (x : HostState platform Parsed β)
    (k : β → HostState platform Parsed α) :
    StateT.run (x >>= k) host = StateT.run (k (StateT.run x host).1) (StateT.run x host).2 := rfl

theorem exec_publish (contributes : Bool) (overlayFile : Option Nat) (declares : Bool) :
    HostProgram.exec (liftM (env.publish contributes overlayFile declares)) host =
      (.ok (), ((refreshFile (env.withDocuments host host.documents contributes) overlayFile).finish
        declares).1) := by
  cases contributes <;> cases overlayFile <;> cases declares <;> rfl

theorem exec_openDocument (id : Str) (version : Int) (text : Str) (path : Option platform.Path) :
    DocumentOperation.exec env host (.openDocument id version text path) =
      resultOf host (env.openDocument host id version text path).toOption := by
  unfold DocumentOperation.exec openDocument openDocumentProgram HostProgram.succeeds
  dsimp only
  rw [HostProgram.exec_get_bind]
  split_ifs with hopen
  · rfl
  · rw [HostProgram.exec_state_bind, exec_publish]
    rfl

theorem exec_stageOpenDocument (id : Str) (version : Int) (text : Str)
    (path : Option platform.Path) :
    DocumentOperation.exec env host (.stageOpenDocument id version text path) =
      resultOf host (env.stageOpenDocument host id version text path).toOption := by
  unfold DocumentOperation.exec stageOpenDocument stageOpenDocumentProgram HostProgram.succeeds
  dsimp only
  rw [HostProgram.exec_get_bind]
  split_ifs with hopen
  · rfl
  · rw [HostProgram.exec_state_bind, exec_publish]
    rfl

theorem exec_stageDocumentText (id : Str) (version : Int) (text : Str) :
    DocumentOperation.exec env host (.stageDocumentText id version text) =
      resultOf host (env.stageDocumentText host id version text).toOption := by
  unfold DocumentOperation.exec stageDocumentText stageDocumentTextProgram HostProgram.succeeds
  dsimp only
  rw [HostProgram.exec_get_bind, HostProgram.exec_except_bind]
  cases openVersion host id version with
  | error e => rfl
  | ok current =>
    dsimp only
    rw [HostProgram.exec_state_bind, exec_publish]
    rfl

/-- The loop over the changes stops at the first one that is refused, with the host as it was. -/
theorem exec_changes_bind {α : Type} (id : Str) (changes : List TextChange) (text : Str)
    (k : Str → HostProgram platform Parsed α) :
    HostProgram.exec (forIn changes text (fun change text => do
      let text ← liftM (applyChange id text change)
      pure (ForInStep.yield text)) >>= k) host =
      match changes.foldlM (applyChange id) text with
      | .ok text => (k text).exec host
      | .error e => (.error e, host) := by
  induction changes generalizing text with
  | nil => rfl
  | cons change changes ih =>
    rw [List.forIn_cons, List.foldlM_cons]
    cases hchange : applyChange id text change with
    | error e => rfl
    | ok text => exact ih text

theorem exec_applyDocumentChanges (id : Str) (version : Int) (changes : List TextChange) :
    DocumentOperation.exec env host (.applyDocumentChanges id version changes) =
      resultOf host (env.applyDocumentChanges host id version changes).toOption := by
  unfold DocumentOperation.exec applyDocumentChanges applyDocumentChangesProgram
    HostProgram.succeeds
  dsimp only
  rw [HostProgram.exec_get_bind, HostProgram.exec_except_bind]
  cases openVersion host id version with
  | error e => rfl
  | ok current =>
    dsimp only
    rw [exec_changes_bind]
    show _ = resultOf host (changes.foldlM (applyChange id) current.text >>= _).toOption
    cases changes.foldlM (applyChange id) current.text with
    | error e => rfl
    | ok text =>
      dsimp only
      rw [HostProgram.exec_state_bind, exec_publish]
      rfl

theorem exec_closeDocument (id : Str) (onDisk : Option Str) :
    DocumentOperation.exec env host (.closeDocument id onDisk) =
      resultOf host (env.closeDocument host id onDisk).toOption := by
  unfold DocumentOperation.exec closeDocument closeDocumentProgram HostProgram.succeeds
  dsimp only
  rw [HostProgram.exec_get_bind]
  cases host.documents[id]? with
  | none => rfl
  | some current =>
    dsimp only
    split_ifs with hsource
    · rfl
    · rw [HostProgram.exec_state_bind, HostProgram.exec_get_bind]
      cases current.path with
      | none =>
        dsimp only [Option.bind_none]
        rw [exec_publish]
        rfl
      | some path =>
        cases onDisk with
        | none =>
          dsimp only [Option.bind_some, Option.map_none]
          rw [exec_publish]
          rfl
        | some text =>
          dsimp only [Option.bind_some, Option.map_some]
          rw [HostProgram.exec_state_bind, exec_publish]
          rfl

theorem exec_commitPreparedDocument (prepared : PreparedDocument platform Parsed) :
    DocumentOperation.exec env host (.commitPreparedDocument prepared) =
      resultOf host (env.commitPreparedDocument host prepared) := by
  unfold DocumentOperation.exec commitPreparedDocument commitPreparedDocumentProgram
  dsimp only
  rw [run_get_bind]
  cases host.documents[prepared.document.id]? with
  | none => rfl
  | some current =>
    dsimp only
    split_ifs with hmatches
    · rw [run_state_bind, run_state_bind, run_publish]
      rfl
    · rfl

theorem exec_openDiskDocument (id : Str) (path : platform.Path) (onDisk : Option Str) :
    DocumentOperation.exec env host (.openDiskDocument id path onDisk) =
      resultOf host (env.openDiskDocument host id path onDisk) := by
  unfold DocumentOperation.exec openDiskDocument openDiskDocumentProgram
  dsimp only
  rw [run_get_bind]
  split_ifs with hknown
  · rfl
  · cases onDisk with
    | none => rfl
    | some text =>
      rw [run_state_bind, run_state_bind, run_publish]
      rfl

end HostEnvironment

/-- An operation that is refused returns early, before anything has changed. -/
theorem DocumentOperation.exec_eq (operation : DocumentOperation platform Parsed) :
    operation.exec env host = resultOf host (operation.run env host) := by
  cases operation with
  | openDocument id version text path =>
    exact HostEnvironment.exec_openDocument id version text path
  | stageOpenDocument id version text path =>
    exact HostEnvironment.exec_stageOpenDocument id version text path
  | stageDocumentText id version text =>
    exact HostEnvironment.exec_stageDocumentText id version text
  | commitPreparedDocument prepared => exact HostEnvironment.exec_commitPreparedDocument prepared
  | applyDocumentChanges id version changes =>
    exact HostEnvironment.exec_applyDocumentChanges id version changes
  | closeDocument id onDisk => exact HostEnvironment.exec_closeDocument id onDisk
  | openDiskDocument id path onDisk => exact HostEnvironment.exec_openDiskDocument id path onDisk

theorem DocumentOperation.exec_of_failed {operation : DocumentOperation platform Parsed}
    (h : (operation.exec env host).1 = false) : (operation.exec env host).2 = host := by
  rw [operation.exec_eq] at h ⊢
  cases hrun : operation.run env host with
  | none => rfl
  | some after =>
    rw [hrun] at h
    cases h

end Programs

/-! ## What a document is made of -/

section Built

variable {platform : Platform} {Parsed : Type} (frontend : Frontend platform Parsed)

/-- Facts that lowering the tree of a text gives, less what a failed round takes back. -/
inductive BuiltFrom (text : Str) : HirFile → Prop
  | lower (format : ParadoxCode.Parser.FileFormat) (logicalPath : Option Str)
      (facts : Option IndexSymbolFacts) :
    BuiltFrom text (frontend.lower (frontend.parse format text) logicalPath facts).1
  | discard {hir : HirFile} (h : BuiltFrom text hir) :
      BuiltFrom text hir.discardConditionalBaseFacts
  | cover {hir : HirFile} (h : BuiltFrom text hir) (coverage : Hir.AnalysisCoverage) :
    BuiltFrom text { hir with analysisCoverage := coverage }

/-- The tree and the facts of a document are made of its text. -/
structure Built (document : DocumentSnapshot platform Parsed) : Prop where
  parsed : ∀ parsed, document.parsed = some parsed → ∃ format,
    parsed = frontend.parse format document.text
  hir : ∀ hir, document.hir = some hir → BuiltFrom frontend document.text hir

variable {frontend}

theorem built_unparsed (id : Str) (version : Option Int) (text : Str) (source : DocumentSource)
    (path : Option platform.Path) : Built frontend (unparsedDocument id version text source path) :=
  ⟨nofun, nofun⟩

theorem built_prepareDocumentSnapshot (facts : Option IndexSymbolFacts)
    (document : DocumentSnapshot platform Parsed) :
    Built frontend (frontend.prepareDocumentSnapshot facts document) := by
  unfold Frontend.prepareDocumentSnapshot
  cases frontend.parserForDocument document.id document.path with
  | none => exact ⟨nofun, nofun⟩
  | some made =>
    obtain ⟨parser, logicalPath⟩ := made
    cases parser with
    | script =>
      refine ⟨fun parsed h => ⟨.script, (Option.some.inj h).symm⟩, fun hir h => ?_⟩
      obtain rfl := Option.some.inj h
      exact .lower .script logicalPath facts
    | localisation =>
      refine ⟨fun parsed h => ⟨.localisation, (Option.some.inj h).symm⟩, fun hir h => ?_⟩
      obtain rfl := Option.some.inj h
      exact .lower .localisation logicalPath facts
    | asset | syntaxOnly => exact ⟨nofun, nofun⟩

theorem Built.relower {document : DocumentSnapshot platform Parsed} (h : Built frontend document)
    (facts : Option IndexSymbolFacts) : Built frontend
      (frontend.relowerDocumentSnapshot document facts).1 := by
  unfold Frontend.relowerDocumentSnapshot
  split
  next parser path parsed hparser hparsed =>
    refine ⟨h.parsed, fun hir hhir => ?_⟩
    obtain ⟨format, hformat⟩ := h.parsed _ hparsed
    obtain rfl := Option.some.inj hhir
    rw [hformat]
    exact .lower format (some path) facts
  · exact h

theorem Built.fail {document : DocumentSnapshot platform Parsed} (h : Built frontend document) :
    Built frontend (failDocument document) := by
  unfold failDocument
  split_ifs
  · refine ⟨h.parsed, fun hir hhir => ?_⟩
    obtain ⟨old, hold, rfl⟩ := Option.map_eq_some_iff.mp hhir
    exact .cover (.discard (h.hir old hold)) _
  · exact h

/-- Every document is made of its text. -/
def AllBuilt (frontend : Frontend platform Parsed) (documents : Documents platform Parsed) : Prop :=
  ∀ (id : Str) (document : DocumentSnapshot platform Parsed), documents[id]? = some document →
    Built frontend document

theorem AllBuilt.insert {documents : Documents platform Parsed}
    (h : AllBuilt frontend documents) (id : Str)
    {document : DocumentSnapshot platform Parsed} (hdocument : Built frontend document) :
    AllBuilt frontend (documents.insert id document) := by
  intro other found hfound
  rw [getElem?_insert_document] at hfound
  split_ifs at hfound
  · exact Option.some.inj hfound ▸ hdocument
  · exact h other found hfound

theorem AllBuilt.lowerBase {budget : OverlayFactBudget} {base : Base platform Parsed}
    (h : AllBuilt frontend base.documents) {entry : Str × DocumentSnapshot platform Parsed}
    (hentry : Built frontend entry.2) : AllBuilt frontend
      (frontend.lowerBase budget base entry).documents := by
  unfold Frontend.lowerBase
  have hreset : Built frontend { entry.2 with factCoverage := {} } := ⟨hentry.parsed, hentry.hir⟩
  dsimp only
  split_ifs
  · exact h
  · exact h.insert _ hreset
  · exact h.insert _ hreset
  · have hlowered := hreset.relower none
    exact h.insert _ ⟨hlowered.parsed, hlowered.hir⟩

theorem built_of_mem_batch {index : WorkspaceIndex} {excluded : Finset Nat}
    {candidate : Documents platform Parsed} {pending : List Str} (h : AllBuilt frontend candidate)
    {entry : Str × DocumentSnapshot platform Parsed}
    (hentry : entry ∈ frontend.batch index excluded candidate pending) :
    Built frontend entry.2 := by
  obtain ⟨id, -, hmap⟩ := List.mem_filterMap.mp hentry
  obtain ⟨document, hdocument, rfl⟩ := Option.map_eq_some_iff.mp hmap
  have hlowered := (h id document hdocument).relower
    (some ⟨index, overlayTrees candidate, excluded⟩)
  exact ⟨hlowered.parsed, hlowered.hir⟩

theorem AllBuilt.takeNext {batch : List (Str × DocumentSnapshot platform Parsed)}
    (hbatch : ∀ entry ∈ batch, Built frontend entry.2)
    (state : Documents platform Parsed × List SymbolDependency × Nat)
    (h : AllBuilt frontend state.1) : AllBuilt frontend (batch.foldl takeNext state).1 := by
  have hfold := List.foldlRecOn batch Workspace.takeNext
    (motive := fun state : Documents platform Parsed × List SymbolDependency × Nat =>
      AllBuilt frontend state.1) (b := state) h
  apply hfold
  intro state hstate entry hentry
  rw [takeNext_fst]
  exact hstate.insert _ (hbatch entry hentry)

theorem AllBuilt.discover (index : WorkspaceIndex) (excluded : Finset Nat)
    (budget : OverlayFactBudget) {found : Documents platform Parsed} (rounds : Nat) :
    ∀ (lowers : Nat) (candidate : Documents platform Parsed) (pending : List Str)
      (history : List (Std.ExtTreeMap Str HirFile)) (historyBytes : Nat),
        AllBuilt frontend candidate →
      frontend.discover index excluded budget rounds lowers candidate pending history historyBytes =
        some found → AllBuilt frontend found := by
  induction rounds with
  | zero =>
    intro lowers candidate pending history historyBytes h hfound
    unfold Frontend.discover at hfound
    split_ifs at hfound
    exact Option.some.inj hfound ▸ h
  | succ rounds ih =>
    intro lowers candidate pending history historyBytes h hfound
    unfold Frontend.discover at hfound
    have hbatch : ∀ entry ∈ frontend.batch index excluded candidate pending,
      Built frontend entry.2 :=
      fun entry hentry => built_of_mem_batch h hentry
    have hnext := AllBuilt.takeNext hbatch (candidate, [], historyBytes) h
    dsimp only at hfound
    revert hfound hnext
    cases (frontend.batch index excluded candidate pending).foldl Workspace.takeNext
      (candidate, [], historyBytes) with
    | mk next rest =>
    intro hfound hnext
    split_ifs at hfound
    · exact Option.some.inj hfound ▸ h
    · exact Option.some.inj hfound ▸ hnext
    · exact ih _ _ _ _ _ hnext hfound

/-- Lowering the open documents again keeps every document made of its text. -/
theorem AllBuilt.stabilizeOverlayFacts {documents : Documents platform Parsed}
    (h : AllBuilt frontend documents) (index : WorkspaceIndex) (excluded : Finset Nat)
    (budget : OverlayFactBudget) :
    AllBuilt frontend (frontend.stabilizeOverlayFacts documents index excluded budget) := by
  have hbase : AllBuilt frontend
      (documents.toList.foldl (frontend.lowerBase budget) ⟨documents, [], 0, false⟩).documents := by
    refine List.foldlRecOn documents.toList _
      (motive := fun base : Base platform Parsed => AllBuilt frontend base.documents) h ?_
    intro base hbase entry hentry
    exact hbase.lowerBase (h entry.1 entry.2
      (Std.ExtTreeMap.mem_toList_iff_getElem?_eq_some.mp hentry))
  unfold Frontend.stabilizeOverlayFacts
  dsimp only
  split
  next candidate hfound =>
    split_ifs at hfound
    exact AllBuilt.discover index excluded budget _ _ _ _ _ _ hbase hfound
  next =>
    intro id document hdocument
    rw [Std.ExtTreeMap.getElem?_map] at hdocument
    obtain ⟨known, hknown, rfl⟩ := Option.map_eq_some_iff.mp hdocument
    exact (hbase id known hknown).fail

theorem AllBuilt.withDocuments {env : HostEnvironment platform Parsed}
    {host : AnalysisHost platform Parsed}
    {documents : Documents platform Parsed} (h : AllBuilt env.frontend documents) (relower : Bool) :
    AllBuilt env.frontend (env.withDocuments host documents relower).documents := by
  unfold HostEnvironment.withDocuments HostEnvironment.relowered
  dsimp only
  split_ifs
  · exact h
  · exact h.stabilizeOverlayFacts _ _ _
  · exact h

end Built

/-! ## Sessions -/

/-- What an editor has sent since it opened a document. -/
structure Session where
  version : Int
  text : Str
  accepted : List (Int × List TextChange)
  deriving DecidableEq

namespace Session

/-- The versions of the document, in order. -/
def versions (session : Session) : List Int := session.version :: session.accepted.map Prod.fst

/-- The version of the document now. -/
def current (session : Session) : Int := (session.accepted.map Prod.fst).getLast?.getD
    session.version

/-- The changes of all versions, in order. -/
def changes (session : Session) : List TextChange := session.accepted.flatMap Prod.snd

def accept (session : Session) (version : Int) (changes : List TextChange) : Session :=
  { session with accepted := session.accepted ++ [(version, changes)] }

theorem versions_accept (session : Session) (version : Int) (changes : List TextChange) :
    (session.accept version changes).versions = session.versions ++ [version] := by
  unfold accept versions
  rw [List.map_append, List.cons_append]
  rfl

theorem current_accept (session : Session) (version : Int) (changes : List TextChange) :
    (session.accept version changes).current = version := by
  unfold accept current
  rw [List.map_append, List.map_singleton, List.getLast?_concat, Option.getD_some]

theorem changes_accept (session : Session) (version : Int) (changes : List TextChange) :
    (session.accept version changes).changes = session.changes ++ changes := by
  unfold accept Session.changes
  rw [List.flatMap_append, List.flatMap_singleton]

end Session

/-- What an operation that succeeds adds to the sessions. -/
def DocumentOperation.record {platform : Platform} {Parsed : Type}
    (sessions : Str → Option Session) : DocumentOperation platform Parsed → Str → Option Session
  | .openDocument id version text _ | .stageOpenDocument id version text _ =>
    Function.update sessions id (some ⟨version, text, []⟩)
  | .stageDocumentText id version text =>
    Function.update sessions id ((sessions id).map fun session =>
      session.accept version [⟨none, text⟩])
  | .applyDocumentChanges id version changes =>
    Function.update sessions id ((sessions id).map fun session => session.accept version changes)
  | .closeDocument id _ => Function.update sessions id none
  | .commitPreparedDocument _ | .openDiskDocument .. => sessions

/-- A host with the candidates that workers have prepared from it, and the sessions of its
editor. -/
structure Synchronised (platform : Platform) (Parsed : Type) where
  host : AnalysisHost platform Parsed
  prepared : List (PreparedDocument platform Parsed)
  sessions : Str → Option Session

section Runs

variable {platform : Platform} {Parsed : Type} (env : HostEnvironment platform Parsed)

/-- A call of the editor. -/
def Synchronised.call (state : Synchronised platform Parsed)
    (operation : DocumentOperation platform Parsed) : Synchronised platform Parsed :=
  { state with
    host := (operation.exec env state.host).2
    sessions :=
      if (operation.exec env state.host).1 = true then operation.record state.sessions else
        state.sessions }

/-- A call of the editor, or a candidate that a worker has prepared from the snapshot of this state.
A candidate may come back at any time, or more than once. -/
inductive Step : Synchronised platform Parsed → Synchronised platform Parsed → Prop
  | call (state : Synchronised platform Parsed) (operation : DocumentOperation platform Parsed)
    (hprepared : ∀ prepared, operation = .commitPreparedDocument prepared →
      prepared ∈ state.prepared) :
    Step state (state.call env operation)
  | prepare (state : Synchronised platform Parsed) (id : Str)
      (prepared : PreparedDocument platform Parsed)
    (h : env.prepareDocument state.host id = some prepared) :
    Step state { state with prepared := prepared :: state.prepared }

/-- A host without documents. -/
def Synchronised.start (host : AnalysisHost platform Parsed) : Synchronised platform Parsed :=
  ⟨{ host with documents := ∅ }, [], fun _ => none⟩

/-- An open document is at its session: the versions have increased up to its own, and its text is
what the changes make of the text it was opened with. -/
structure AtSession (id : Str) (document : DocumentSnapshot platform Parsed)
    (session : Session) : Prop where
  increasing : session.versions.IsChain (· < ·)
  version : document.version = some session.current
  text : session.changes.foldlM (HostEnvironment.applyChange id) session.text = .ok document.text

/-- A document is at its session where it is open, and there is none where it is not. -/
def FollowsSession (id : Str) (document : Option (DocumentSnapshot platform Parsed))
    (session : Option Session) : Prop :=
  (∀ known, document = some known → known.source = .overlay →
    ∃ opened, session = some opened ∧ AtSession id known opened) ∧
  ((∀ known, document = some known → known.source ≠ .overlay) → session = none)

/-- The open documents are those with a session. -/
def FollowSessions (documents : Documents platform Parsed)
    (sessions : Str → Option Session) : Prop :=
  ∀ id : Str, FollowsSession id documents[id]? (sessions id)

variable {env} {host : AnalysisHost platform Parsed}

/-- The document that an operation leaves where it succeeds, and what has allowed it. -/
inductive Leaves (env : HostEnvironment platform Parsed) (host : AnalysisHost platform Parsed) :
    DocumentOperation platform Parsed → Option (DocumentSnapshot platform Parsed) → Prop
  | openDocument {id : Str} {version : Int} {text : Str} {path : Option platform.Path} :
    Leaves env host (.openDocument id version text path)
      (some (env.documentSnapshot host id (some version) text .overlay path))
  | stageOpenDocument {id : Str} {version : Int} {text : Str} {path : Option platform.Path} :
    Leaves env host (.stageOpenDocument id version text path)
      (some (stagedOverlayDocument id version text path))
  | stageDocumentText {id : Str} {version : Int} {text : Str}
      {current : DocumentSnapshot platform Parsed}
    (hcurrent : HostEnvironment.openVersion host id version = .ok current) :
    Leaves env host (.stageDocumentText id version text)
      (some (stagedOverlayDocument id version text current.path))
  | commitPreparedDocument {prepared : PreparedDocument platform Parsed}
    {current : DocumentSnapshot platform Parsed}
    (hcurrent : host.documents[prepared.document.id]? = some current)
    (hmatches : current.source = .overlay ∧ current.version = prepared.document.version ∧
      current.text = prepared.document.text ∧ current.path = prepared.document.path) :
    Leaves env host (.commitPreparedDocument prepared) (some prepared.document)
  | applyDocumentChanges {id : Str} {version : Int} {changes : List TextChange}
    {current : DocumentSnapshot platform Parsed} {text : Str}
    (hcurrent : HostEnvironment.openVersion host id version = .ok current)
    (htext : changes.foldlM (HostEnvironment.applyChange id) current.text = .ok text) :
    Leaves env host (.applyDocumentChanges id version changes)
      (some (env.documentSnapshot host id (some version) text .overlay current.path))
  | closeDocument {id : Str} {onDisk : Option Str}
      {restored : Option (DocumentSnapshot platform Parsed)}
    (hrestored : ∀ document, restored = some document →
      document.source = .disk ∧ Built env.frontend document) :
    Leaves env host (.closeDocument id onDisk) restored
  | openDiskDocument {id : Str} {path : platform.Path} {onDisk : Option Str}
    {document : DocumentSnapshot platform Parsed} (hunknown : host.documents[id]? = none)
    (hdocument : document.source = .disk ∧ Built env.frontend document) :
    Leaves env host (.openDiskDocument id path onDisk) (some document)

/-- The documents of a host after one of them has been replaced. -/
def Replaced (env : HostEnvironment platform Parsed) (host after : AnalysisHost platform Parsed)
    (id : Str) (document : Option (DocumentSnapshot platform Parsed)) : Prop :=
  ∃ (documents : Documents platform Parsed) (relower : Bool),
    (∀ other : Str, documents[other]? = if id = other then document else host.documents[other]?) ∧
      after.documents = (env.withDocuments host documents relower).documents

theorem documents_finish (refreshed : Option Nat) (declares : Bool) :
    ((HostEnvironment.refreshFile host refreshed).finish declares).1.documents =
      host.documents := by
  cases refreshed <;> cases declares <;> rfl

theorem replaced_insert (id : Str) (document : DocumentSnapshot platform Parsed)
    (relower declares : Bool) (refreshed : Option Nat) :
    Replaced env host ((HostEnvironment.refreshFile (env.withDocuments host
      (host.documents.insert id document) relower) refreshed).finish declares).1 id
        (some document) :=
  ⟨_, relower, (getElem?_insert_document id · document), documents_finish refreshed declares⟩

theorem replaced_restored (id : Str) (restored : Option (DocumentSnapshot platform Parsed))
    (relower declares : Bool) (refreshed : Option Nat) :
    Replaced env host ((HostEnvironment.refreshFile (env.withDocuments host
      (restored.elim (host.documents.erase id) ((host.documents.erase id).insert id)) relower)
        refreshed).finish declares).1 id restored := by
  refine ⟨_, relower, fun other => ?_, documents_finish refreshed declares⟩
  cases restored with
  | none =>
    rw [Option.elim_none, Std.ExtTreeMap.getElem?_erase]
    simp only [Std.compare_eq_iff_eq]
  | some document =>
    rw [Option.elim_some, getElem?_insert_document, Std.ExtTreeMap.getElem?_erase]
    simp only [Std.compare_eq_iff_eq]
    split_ifs <;> rfl

variable {operation : DocumentOperation platform Parsed}

/-- An operation that succeeds replaces its document. -/
theorem DocumentOperation.leaves {after : AnalysisHost platform Parsed} {advanced : Bool}
    (h : operation.run env host = some (after, advanced)) :
    ∃ document, Replaced env host after operation.document document ∧
      Leaves env host operation document := by
  cases operation with
  | openDocument id version text path =>
    simp only [DocumentOperation.run, HostEnvironment.openDocument] at h
    split_ifs at h
    · cases h
    · obtain rfl := congrArg Prod.fst (Option.some.inj h)
      exact ⟨_, replaced_insert id _ _ _ _, .openDocument⟩
  | stageOpenDocument id version text path =>
    simp only [DocumentOperation.run, HostEnvironment.stageOpenDocument] at h
    split_ifs at h
    · cases h
    · obtain rfl := congrArg Prod.fst (Option.some.inj h)
      exact ⟨_, replaced_insert id _ _ _ none, .stageOpenDocument⟩
  | stageDocumentText id version text =>
    obtain ⟨current, hcurrent, hok⟩ := Except.bind_eq_ok_iff.mp (toOption_eq_some_iff.mp h)
    obtain rfl := congrArg Prod.fst (Except.ok.inj hok)
    exact ⟨_, replaced_insert id _ _ _ none, .stageDocumentText hcurrent⟩
  | commitPreparedDocument prepared =>
    simp only [DocumentOperation.run, HostEnvironment.commitPreparedDocument] at h
    split at h
    · cases h
    next current hcurrent =>
      split_ifs at h with hmatches
      obtain rfl := congrArg Prod.fst (Option.some.inj h)
      exact ⟨_, replaced_insert prepared.document.id _ _ _ none,
        .commitPreparedDocument hcurrent hmatches⟩
  | applyDocumentChanges id version changes =>
    obtain ⟨current, hcurrent, hok⟩ := Except.bind_eq_ok_iff.mp (toOption_eq_some_iff.mp h)
    obtain ⟨text, htext, hok⟩ := Except.bind_eq_ok_iff.mp hok
    obtain rfl := congrArg Prod.fst (Except.ok.inj hok)
    exact ⟨_, replaced_insert id _ _ _ none, .applyDocumentChanges hcurrent htext⟩
  | closeDocument id onDisk =>
    simp only [DocumentOperation.run, HostEnvironment.closeDocument] at h
    split at h
    · cases h
    next current hcurrent =>
      split_ifs at h with hoverlay
      · cases h
      · obtain rfl := congrArg Prod.fst (Option.some.inj h)
        refine ⟨_, replaced_restored id _ _ _ _, .closeDocument fun document hdocument => ?_⟩
        obtain ⟨path, -, hmap⟩ := Option.bind_eq_some_iff.mp hdocument
        obtain ⟨text, -, rfl⟩ := Option.map_eq_some_iff.mp hmap
        exact ⟨rfl, built_prepareDocumentSnapshot _ _⟩
  | openDiskDocument id path onDisk =>
    simp only [DocumentOperation.run, HostEnvironment.openDiskDocument] at h
    split_ifs at h with hknown
    obtain ⟨text, -, hok⟩ := Option.map_eq_some_iff.mp h
    obtain rfl := congrArg Prod.fst hok
    refine ⟨_, replaced_insert id _ _ _ none, .openDiskDocument ?_
      ⟨rfl, built_prepareDocumentSnapshot _ _⟩⟩
    exact Std.ExtTreeMap.getElem?_eq_none_of_contains_eq_false
      (Bool.eq_false_iff.mpr fun hcontains => hknown (.inl hcontains))

variable {id : Str}

/-- Lowering a document again leaves it at its session. -/
theorem FollowsSession.relowered {old new : Option (DocumentSnapshot platform Parsed)}
    {session : Option Session} (h : FollowsSession id old session)
    (hrel : Option.Rel Relowered old new) : FollowsSession id new session := by
  cases hrel with
  | none => exact h
  | some hrelowered =>
    constructor
    · rintro _ ⟨⟩ hsource
      obtain ⟨opened, hopened, hat⟩ := h.1 _ rfl (hrelowered.source.symm.trans hsource)
      refine ⟨opened, hopened, hat.increasing, hrelowered.version.trans hat.version, ?_⟩
      rw [hrelowered.text]
      exact hat.text
    · intro hclosed
      refine h.2 ?_
      rintro _ ⟨⟩ hsource
      exact hclosed _ rfl (hrelowered.source.trans hsource)

variable {document : Option (DocumentSnapshot platform Parsed)}

theorem followsSession_disk
    (h : ∀ known, document = some known → known.source = .disk) :
    FollowsSession id document none := by
  refine ⟨fun known hknown hsource => ?_, fun _ => rfl⟩
  rw [h known hknown] at hsource
  cases hsource

/-- A document is opened at a session without changes. -/
theorem followsSession_opened {document : DocumentSnapshot platform Parsed}
    {version : Int} {text : Str}
    (hsource : document.source = .overlay) (hversion : document.version = some version)
    (htext : document.text = text) : FollowsSession id (some document)
      (some ⟨version, text, []⟩) := by
  refine ⟨fun known hknown _ => ⟨_, rfl, ?_⟩, fun hclosed => absurd hsource (hclosed document rfl)⟩
  obtain rfl := Option.some.inj hknown
  exact ⟨List.isChain_singleton _, hversion, congrArg Except.ok htext.symm⟩

/-- The version that is open is older than one that is accepted. -/
theorem openVersion_lt {version : Int} {current : DocumentSnapshot platform Parsed}
    (h : HostEnvironment.openVersion host id version = .ok current) {known : Int}
    (hknown : current.version = some known) : known < version := by
  unfold HostEnvironment.openVersion at h
  split at h
  · cases h
  · dsimp only at h
    split_ifs at h with hsource hversion
    obtain rfl := Except.ok.inj h
    rw [hknown, Option.getD_some] at hversion
    exact Int.not_le.mp hversion

/-- A newer version takes the session on by its changes. -/
theorem FollowsSession.accept {id : Str} {current document : DocumentSnapshot platform Parsed}
    {session : Option Session} (h : FollowsSession id (some current) session)
    (hcurrent : current.source = .overlay)
    {version : Int} (hnewer : ∀ known, current.version = some known → known < version)
    {changes : List TextChange} (hsource : document.source = .overlay)
    (hversion : document.version = some version)
    (htext : changes.foldlM (HostEnvironment.applyChange id) current.text = .ok document.text) :
    FollowsSession id (some document)
      (session.map fun session => session.accept version changes) := by
  obtain ⟨opened, rfl, hat⟩ := h.1 current rfl hcurrent
  refine ⟨fun known hknown _ => ⟨_, rfl, ?_⟩, fun hclosed => absurd hsource (hclosed document rfl)⟩
  obtain rfl := Option.some.inj hknown
  refine ⟨?_, ?_, ?_⟩
  · rw [Session.versions_accept, List.isChain_append]
    refine ⟨hat.increasing, List.isChain_singleton _, fun last hlast next hnext => ?_⟩
    unfold Session.versions at hlast
    rw [List.getLast?_cons] at hlast
    obtain rfl := Option.some.inj hlast
    obtain rfl := Option.some.inj hnext
    exact hnewer _ hat.version
  · rw [Session.current_accept]
    exact hversion
  · rw [Session.changes_accept, List.foldlM_append]
    show List.foldlM (HostEnvironment.applyChange id) opened.text opened.changes >>= _ = _
    rw [hat.text]
    exact htext

variable {sessions : Str → Option Session}

theorem DocumentOperation.record_of_ne {other : Str} (h : operation.document ≠ other) :
    operation.record sessions other = sessions other := by
  cases operation <;> first
    | rfl
    | exact Function.update_of_ne (Ne.symm h) _ _

/-- The document of an operation that succeeds is at its session. -/
theorem Leaves.followsSession (h : FollowSessions host.documents sessions)
    (hleaves : Leaves env host operation document) :
    FollowsSession operation.document document (operation.record sessions operation.document) := by
  cases hleaves with
  | openDocument =>
    dsimp only [DocumentOperation.record, DocumentOperation.document]
    rw [Function.update_self]
    exact followsSession_opened rfl rfl rfl
  | stageOpenDocument =>
    dsimp only [DocumentOperation.record, DocumentOperation.document]
    rw [Function.update_self]
    exact followsSession_opened rfl rfl rfl
  | @stageDocumentText id version text current hcurrent =>
    obtain ⟨hknown, hoverlay⟩ := openVersion_eq_ok hcurrent
    dsimp only [DocumentOperation.record, DocumentOperation.document]
    rw [Function.update_self]
    have hid := h id
    rw [hknown] at hid
    exact hid.accept hoverlay (fun known => openVersion_lt hcurrent) rfl rfl rfl
  | @commitPreparedDocument prepared current hcurrent hmatches =>
    have hid := h prepared.document.id
    rw [hcurrent] at hid
    obtain ⟨opened, hopened, hat⟩ := hid.1 current rfl hmatches.1
    refine ⟨fun known hknown _ => ⟨opened, hopened, ?_⟩,
      fun hclosed => absurd prepared.isOverlay (hclosed _ rfl)⟩
    obtain rfl := Option.some.inj hknown
    refine ⟨hat.increasing, hmatches.2.1.symm.trans hat.version, ?_⟩
    rw [← hmatches.2.2.1]
    exact hat.text
  | @applyDocumentChanges id version changes current text hcurrent htext =>
    obtain ⟨hknown, hoverlay⟩ := openVersion_eq_ok hcurrent
    dsimp only [DocumentOperation.record, DocumentOperation.document]
    rw [Function.update_self]
    have hid := h id
    rw [hknown] at hid
    exact hid.accept hoverlay (fun known => openVersion_lt hcurrent) rfl rfl htext
  | closeDocument hrestored =>
    dsimp only [DocumentOperation.record, DocumentOperation.document]
    rw [Function.update_self]
    exact followsSession_disk fun known hknown => (hrestored known hknown).1
  | @openDiskDocument id path onDisk document hunknown hdocument =>
    have hnone : sessions id = none := by
      refine (h id).2 fun known hknown => ?_
      rw [hunknown] at hknown
      cases hknown
    show FollowsSession id _ (sessions id)
    rw [hnone]
    refine followsSession_disk fun known hknown => ?_
    obtain rfl := Option.some.inj hknown
    exact hdocument.1

/-- The document of an operation that succeeds is made of its text. -/
theorem Leaves.built (hleaves : Leaves env host operation document)
    (hprepared : ∀ prepared, operation = .commitPreparedDocument prepared →
      Built env.frontend prepared.document) {known : DocumentSnapshot platform Parsed}
    (hknown : document = some known) : Built env.frontend known := by
  cases hleaves with
  | openDocument | applyDocumentChanges =>
    obtain rfl := Option.some.inj hknown
    exact built_prepareDocumentSnapshot _ _
  | stageOpenDocument | stageDocumentText =>
    obtain rfl := Option.some.inj hknown
    exact built_unparsed _ _ _ _ _
  | commitPreparedDocument =>
    obtain rfl := Option.some.inj hknown
    exact hprepared _ rfl
  | closeDocument hrestored => exact (hrestored known hknown).2
  | openDiskDocument _ hdocument =>
    obtain rfl := Option.some.inj hknown
    exact hdocument.2

theorem Replaced.follows {after : AnalysisHost platform Parsed}
    (hreplaced : Replaced env host after operation.document document)
    (h : FollowSessions host.documents sessions)
    (hdocument : FollowsSession operation.document document
      (operation.record sessions operation.document)) :
    FollowSessions after.documents (operation.record sessions) := by
  obtain ⟨documents, relower, hdocuments, hafter⟩ := hreplaced
  intro other
  rw [hafter]
  refine FollowsSession.relowered ?_ (sameDocuments_withDocuments documents relower other)
  rw [hdocuments]
  split_ifs with heq
  · exact heq ▸ hdocument
  · rw [DocumentOperation.record_of_ne heq]
    exact h other

theorem Replaced.allBuilt {after : AnalysisHost platform Parsed}
    (hreplaced : Replaced env host after id document) (h : AllBuilt env.frontend host.documents)
    (hdocument : ∀ known, document = some known → Built env.frontend known) :
    AllBuilt env.frontend after.documents := by
  obtain ⟨documents, relower, hdocuments, hafter⟩ := hreplaced
  rw [hafter]
  refine AllBuilt.withDocuments (fun other known hknown => ?_) relower
  rw [hdocuments] at hknown
  split_ifs at hknown
  · exact hdocument known hknown
  · exact h other known hknown

/-- The invariant of a run. -/
structure Synchronised.Inv (env : HostEnvironment platform Parsed)
    (state : Synchronised platform Parsed) :
    Prop where
  follows : FollowSessions state.host.documents state.sessions
  built : AllBuilt env.frontend state.host.documents
  prepared : ∀ prepared ∈ state.prepared, Built env.frontend prepared.document

theorem inv_start (host : AnalysisHost platform Parsed) : (Synchronised.start host).Inv env where
  follows id := by
    have hnone : (Synchronised.start host).host.documents[id]? = none :=
      Std.ExtTreeMap.getElem?_empty
    rw [hnone]
    exact followsSession_disk nofun
  built id document hdocument := by
    rw [show (Synchronised.start host).host.documents[id]? =
      none from Std.ExtTreeMap.getElem?_empty] at hdocument
    cases hdocument
  prepared _ h := absurd h List.not_mem_nil

theorem Synchronised.Inv.step {state next : Synchronised platform Parsed} (h : state.Inv env)
    (hstep : Step env state next) : next.Inv env := by
  cases hstep with
  | call operation hprepared =>
    unfold Synchronised.call
    rw [operation.exec_eq]
    cases hrun : operation.run env state.host with
    | none => exact h
    | some result =>
      obtain ⟨after, advanced⟩ := result
      obtain ⟨document, hreplaced, hleaves⟩ := DocumentOperation.leaves hrun
      refine ⟨hreplaced.follows h.follows (hleaves.followsSession h.follows), ?_, h.prepared⟩
      refine hreplaced.allBuilt h.built fun known hknown => ?_
      exact hleaves.built (fun prepared heq => h.prepared prepared (hprepared prepared heq)) hknown
  | prepare id prepared hprepare =>
    refine ⟨h.follows, h.built, fun candidate hcandidate => ?_⟩
    rcases List.mem_cons.mp hcandidate with rfl | hcandidate
    · obtain ⟨document, -, hsome⟩ := Option.bind_eq_some_iff.mp hprepare
      split_ifs at hsome
      obtain rfl := Option.some.inj hsome
      exact built_prepareDocumentSnapshot _ _
    · exact h.prepared candidate hcandidate

theorem inv_run {state : Synchronised platform Parsed}
    (hrun : Relation.ReflTransGen (Step env) (.start host) state) : state.Inv env := by
  induction hrun with
  | refl => exact inv_start host
  | tail _ hstep ih => exact ih.step hstep

/-- A candidate is committed exactly where it is of the version, the text and the path that are
open. -/
theorem commit_iff (prepared : PreparedDocument platform Parsed) :
    (DocumentOperation.exec env host (.commitPreparedDocument prepared)).1 = true ↔
      ∃ current, host.documents[prepared.document.id]? = some current ∧ current.source = .overlay ∧
        current.version = prepared.document.version ∧ current.text = prepared.document.text ∧
        current.path = prepared.document.path := by
  rw [HostEnvironment.exec_commitPreparedDocument]
  unfold HostEnvironment.commitPreparedDocument
  dsimp only
  cases host.documents[prepared.document.id]? with
  | none => exact iff_of_false nofun fun ⟨_, h, _⟩ => (nomatch h)
  | some current =>
    dsimp only
    split_ifs with hmatches
    · exact iff_of_true rfl ⟨current, rfl, hmatches⟩
    · refine iff_of_false nofun fun ⟨known, hknown, h⟩ => hmatches ?_
      rw [Option.some.inj hknown]
      exact h

/-- Whatever the editor sends and whenever candidates come back, the open documents are at their
sessions and made of their texts, stale candidates are refused and what fails changes nothing. -/
theorem synchronised {state : Synchronised platform Parsed}
    (hrun : Relation.ReflTransGen (Step env) (.start host) state) :
    (∀ (id : Str) (document : DocumentSnapshot platform Parsed),
      state.host.documents[id]? = some document → document.source = .overlay →
        (∃ session, state.sessions id = some session ∧ AtSession id document session) ∧
        Built env.frontend document) ∧
    (∀ prepared : PreparedDocument platform Parsed,
      (DocumentOperation.exec env state.host (.commitPreparedDocument prepared)).1 = true ↔
        ∃ current, state.host.documents[prepared.document.id]? = some current ∧
          current.source = .overlay ∧ current.version = prepared.document.version ∧
          current.text = prepared.document.text ∧ current.path = prepared.document.path) ∧
    ∀ operation : DocumentOperation platform Parsed, (operation.exec env state.host).1 = false →
      (operation.exec env state.host).2 = state.host := by
  have hinv := inv_run hrun
  refine ⟨fun id document hdocument hsource => ⟨?_, hinv.built id document hdocument⟩, commit_iff,
    fun operation => operation.exec_of_failed⟩
  exact (hinv.follows id).1 document hdocument hsource

end Runs

/-- A frontend that keeps a text as its tree and finds no definitions in it. -/
def plainEnvironment : HostEnvironment .unix Str where
  frontend :=
    { parserForDocument := fun _ _ => some (.script, none)
      parse := fun _ text => text
      lower := fun text _ _ => (⟨text, [], [], [], [], false, {}⟩, ∅) }
  irFilesEmpty := true
  dynamicDefinitionContext := fun _ => none
  buildFileState := fun file source revision =>
    ⟨source, revision, ⟨file.id, [], [], [], [], [], 0, true⟩, none⟩
  emptyFileState := fun file revision =>
    ⟨[], revision, ⟨file.id, [], [], [], [], [], 0, true⟩, none⟩
  isRetained := fun _ => true

/-- A note that is opened and changed twice in one notification; a text of the same version comes
late. -/
def note : Synchronised .unix Str :=
  (((Synchronised.start .empty).call plainEnvironment
    (.openDocument "note".toList 1 "abcd".toList none)).call plainEnvironment
    (.applyDocumentChanges "note".toList 2
      [⟨some (.sized 2 1), "X".toList⟩, ⟨some (.sized 0 1), []⟩])).call plainEnvironment
    (.stageDocumentText "note".toList 2 "late".toList)

theorem note_reached : Relation.ReflTransGen (Step plainEnvironment) (.start .empty) note := by
  refine .tail (.tail (.single (.call _ _ ?_)) (.call _ _ ?_)) (.call _ _ ?_)
  all_goals
    intro prepared h
    cases h

/-- The note is at its session, and the late text has changed nothing. -/
theorem synchronised_note : ∃ document, note.host.documents["note".toList]? = some document ∧
    document.text = "bXd".toList ∧
    ((∃ session, note.sessions "note".toList = some session ∧
      AtSession "note".toList document session) ∧ Built plainEnvironment.frontend document) ∧
    (DocumentOperation.exec plainEnvironment note.host
      (.stageDocumentText "note".toList 2 "late".toList)).2 = note.host := by
  obtain ⟨document, hdocument⟩ := Option.isSome_iff_exists.mp
    (show (note.host.documents["note".toList]?).isSome = true by decide +kernel)
  have htext : note.host.documents["note".toList]?.map (·.text) =
    some "bXd".toList := by decide +kernel
  have hsource : note.host.documents["note".toList]?.map (·.source) =
    some .overlay := by decide +kernel
  rw [hdocument] at htext hsource
  refine ⟨document, hdocument, Option.some.inj htext, ?_, ?_⟩
  · exact (synchronised note_reached).1 "note".toList document hdocument (Option.some.inj hsource)
  · exact (synchronised note_reached).2.2 _ (by decide +kernel)

end ParadoxCode.Workspace
