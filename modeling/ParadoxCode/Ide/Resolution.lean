import Mathlib.Data.List.Destutter
import ParadoxCode.Workspace.SourceResolution

/-!
# Symbols of a snapshot

`resolution.rs` of the ide crate, with `support.rs`: the semantic facts of the open documents and of
the files, the candidates of a symbol among them and among the definitions of the index, and the
winner.

What parsing, lowering and template expansion find in an input is a parameter of the snapshot
(`ParsedInput`): the facts of its HIR and the items of its template consumptions, each with its
range in the source where it has one. Nothing is cancelled, and semantic data are computed anew.
-/

namespace ParadoxCode.Ide

open Engine.Store (Definition Reference)
open Format (eqIgnoreAsciiCase)
open Hir (AnalysisCoverage AnalysisLimit)
open StableSort (sortByKey)
open Workspace (DocumentSource HirDefinition WorkspaceIndex)
open Workspace.SourceResolution
    (PathOperations SourceRoot SourceFile Document maxByKey rootPriority)

/-! ## Inputs and snapshots -/

/-- `ParameterDefinition` of the HIR, as far as navigation reads it. -/
structure ParameterDefinition where
  name : Str
  range : TextRange
  nameRange : TextRange
  ownerRange : TextRange
  deriving DecidableEq

structure ParameterReference where
  name : Str
  range : TextRange
  nameRange : TextRange
  ownerRange : TextRange
  deriving DecidableEq

/-- `HirFile`, as far as navigation reads it. -/
structure HirFile where
  coverage : AnalysisCoverage := {}
  definitions : List HirDefinition := []
  references : List Reference := []
  /-- `ir_reference_is_template` of each reference. -/
  isTemplate : Reference → Bool := fun _ => true
  parameterDefinitions : List ParameterDefinition := []
  parameterReferences : List ParameterReference := []

/-- What a template consumption has found: calls, definitions and references that depend on its
arguments. There is no range where the text is not that of an argument. -/
inductive Consumed where
  | call (kind name : Str) (range : Option TextRange)
  | definition (kind name : Str) (selection range : Option TextRange)
  | reference (kind name : Str) (range : Option TextRange)

structure Consumption where
  coverage : AnalysisCoverage := {}
  items : List Consumed

structure ParsedInput where
  path : Option Str
  source : Str
  format : Parser.FileFormat
  hir : Option HirFile
  consumptions : List Consumption := []

/-- `FileState`, as far as the search for names reads it. -/
structure FileState where
  source : Str
  symbolFactsDependency : Bool

structure AnalysisSnapshot (Path : Type) [Ord Path] extends
    Workspace.SourceResolution.AnalysisSnapshot Path where
  index : WorkspaceIndex
  /-- The rows of the installed caches, file by file. -/
  referenceSources : List (List (Nat × Reference))
  fileStates : Std.ExtTreeMap Nat FileState
  /-- `input_for_document`. -/
  documentInput : Str → Option ParsedInput
  /-- `input_for_source_file`. -/
  fileInput : Nat → Option ParsedInput
  /-- `localisation_preview_language`. -/
  previewLanguage : Str
  /-- Whether the kind of a root is `Project`. -/
  isProject : SourceRoot Path → Bool := fun _ => true

structure Location where
  document : Option Str
  file : Option Nat
  path : Option Str
  range : TextRange
  deriving DecidableEq

/-- `same_name`. -/
def sameName (left right : Str) : Bool := eqIgnoreAsciiCase left right

/-- The function `contains`. -/
def contains (range : TextRange) (position : Nat) : Bool :=
  if range.start = range.stop then position == range.start
  else range.start ≤ position && position < range.stop

/-! ## Semantic data -/

/-- Whose text a fact is in: the document, the file and the logical path. -/
structure Owner where
  document : Option Str
  file : Option Nat
  path : Option Str
  deriving DecidableEq

/-- `DefinitionInfo`, whose symbol repeats the kind and the name. -/
structure DefinitionInfo where
  kind : Str
  name : Str
  range : TextRange
  selectionRange : TextRange
  owner : Owner
  deriving DecidableEq

/-- `ReferenceInternal`. -/
structure ReferenceInternal where
  kind : Str
  name : Str
  range : TextRange
  owner : Owner
  deriving DecidableEq

def Owner.location (owner : Owner) (range : TextRange) : Location :=
  ⟨owner.document, owner.file, owner.path, range⟩

/-- `symbol.location`. -/
def DefinitionInfo.location (definition : DefinitionInfo) : Location :=
  definition.owner.location definition.range

/-- `ReferenceInternal::location`. -/
def ReferenceInternal.location (reference : ReferenceInternal) : Location :=
  reference.owner.location reference.range

/-- `SemanticFile`, and `SemanticWorkspace` with the same fields. -/
structure SemanticFile where
  coverage : AnalysisCoverage := {}
  blockedEdits : Finset (Str × Str) := ∅
  definitions : List DefinitionInfo := []
  references : List ReferenceInternal := []

namespace SemanticFile

/-- `blocked_edits.insert`. -/
def block (data : SemanticFile) (kind name : Str) : SemanticFile :=
  { data with
    blockedEdits := insert (toAsciiLowercase kind, toAsciiLowercase name) data.blockedEdits }

def define (data : SemanticFile) (definition : DefinitionInfo) : SemanticFile :=
  { data with definitions := data.definitions ++ [definition] }

def refer (data : SemanticFile) (reference : ReferenceInternal) : SemanticFile :=
  { data with references := data.references ++ [reference] }

/-- What the workspace takes of a file. -/
def extend (all data : SemanticFile) : SemanticFile where
  coverage := all.coverage.merge data.coverage
  blockedEdits := all.blockedEdits ∪ data.blockedEdits
  definitions := all.definitions ++ data.definitions
  references := all.references ++ data.references

end SemanticFile

/-- `make_definition`. -/
def makeDefinition (owner : Owner) (kind name : Str) (range selectionRange : TextRange) :
    DefinitionInfo :=
  ⟨kind, name, range, selectionRange, owner⟩

/-- One item of a consumption: without a range the symbol cannot be edited. -/
def takeConsumed (owner : Owner) (data : SemanticFile) : Consumed → SemanticFile
  | .call kind name (some range) | .reference kind name (some range) =>
      data.refer ⟨kind, name, range, owner⟩
  | .call kind name none | .reference kind name none => data.block kind name
  | .definition kind name (some selection) range =>
    data.define (makeDefinition owner kind name (range.getD selection) selection)
  | .definition kind name none _ => data.block kind name

/-- The kind, the name and the range that references are sorted by. -/
def ReferenceInternal.sortKey (reference : ReferenceInternal) : Str ×ₗ Str ×ₗ ℕ ×ₗ ℕ :=
  toLex (reference.kind, toLex (reference.name,
    toLex (reference.range.start, reference.range.stop)))

def DefinitionInfo.sortKey (definition : DefinitionInfo) : Str ×ₗ Str ×ₗ ℕ ×ₗ ℕ :=
  toLex (definition.kind, toLex (definition.name,
    toLex (definition.selectionRange.start, definition.selectionRange.stop)))

/-- `collect_template_semantics`. -/
def collectTemplateSemantics (owner : Owner) (input : ParsedInput) (data : SemanticFile) :
    SemanticFile :=
  if input.format = .script then
    let data := input.consumptions.foldl (fun data consumption =>
      consumption.items.foldl (takeConsumed owner)
        { data with coverage := data.coverage.merge consumption.coverage }) data
    { data with
      references := (sortByKey ReferenceInternal.sortKey data.references).destutter fun kept next =>
        kept.sortKey ≠ next.sortKey
      definitions := (sortByKey DefinitionInfo.sortKey data.definitions).destutter fun kept next =>
        kept.sortKey ≠ next.sortKey }
  else data

/-- The facts of the HIR. -/
def takeHir (owner : Owner) (hir : HirFile) (data : SemanticFile) : SemanticFile where
  coverage := data.coverage.merge hir.coverage
  blockedEdits := data.blockedEdits
  definitions := data.definitions ++ hir.definitions.map fun definition =>
    makeDefinition owner definition.kind definition.name definition.range definition.selectionRange
  references := data.references ++ (hir.references.filter hir.isTemplate).map fun reference =>
    ⟨reference.kind, reference.name, reference.range, owner⟩

/-- `semantic_data`. -/
def semanticData (owner : Owner) (input : ParsedInput) : SemanticFile :=
  match input.hir with
  | none => collectTemplateSemantics owner input {}
  | some hir => collectTemplateSemantics owner input (takeHir owner hir {})

/-- A window of the source that is the needle without case; there is none for an empty needle. -/
def mentions (source needle : Str) : Bool :=
  !needle.isEmpty && source.tails.any fun tail => eqIgnoreAsciiCase (tail.take needle.length) needle

section Snapshot

variable {Path : Type} [Ord Path] [Std.TransOrd Path] [Std.LawfulEqOrd Path]
  (ops : PathOperations Path) (snapshot : AnalysisSnapshot Path)

namespace AnalysisSnapshot

/-- `source_file_id_for_path`: the first file of a path. -/
def sourceFileIdForPath (path : Path) : Option Nat :=
  (snapshot.sourceFiles.toList.find? fun entry =>
    compare entry.2.physicalPath (ops.normalize path) == .eq).map Prod.fst

/-- The overlay documents in the order of their identities. -/
def overlayDocuments : List (Str × Document Path) :=
  snapshot.documents.toList.filter fun entry => decide (entry.2.source = .overlay)

/-- The function `overlay_file_ids`. -/
def overlayFileIds : Finset Nat :=
  ((snapshot.overlayDocuments.filterMap fun entry => entry.2.path).filterMap
    (snapshot.sourceFileIdForPath ops)).toFinset

/-- `source_is_effective`. -/
def sourceIsEffective (document : Option Str) (file : Option Nat) : Bool :=
  match document with
  | some document => decide (document ∈ (snapshot.resolve ops).documents)
  | none => file.any fun file => decide (file ∈ (snapshot.resolve ops).files)

/-- `suppressed_overlay_documents`. -/
def suppressedOverlayDocuments : Finset Str := (snapshot.resolve ops).suppressed

/-- `lazy_references_for`. -/
def lazyReferencesFor (kind name : Str) : List (Nat × Reference) :=
  snapshot.referenceSources.flatMap fun rows => rows.filter fun row =>
    eqIgnoreAsciiCase row.2.kind kind && eqIgnoreAsciiCase row.2.name name

/-- The owner of the facts of an open document. -/
def documentOwner (id : Str) (input : ParsedInput) : Owner where
  document := some id
  file := (snapshot.documents[id]?.bind (·.path)).bind (snapshot.sourceFileIdForPath ops)
  path := input.path

/-- The owner of the facts of a file. -/
def fileOwner (fileId : Nat) : Owner where
  document := none
  file := some fileId
  path := snapshot.sourceFiles[fileId]?.map (·.logicalPath)

/-- `semantic_data` of a document that has an input. -/
def documentSemantics (id : Str) : Option SemanticFile :=
  (snapshot.documentInput id).map fun input => semanticData
    (snapshot.documentOwner ops id input) input

/-- What the loop over the files of `all_semantics_inner` makes of one file. -/
def takeFile (fileFilter : FileState → Bool) (all : SemanticFile) (fileId : Nat) : SemanticFile :=
  if fileId ∈ snapshot.overlayFileIds ops then all
  else
    let all := if snapshot.index.shards[fileId]?.any (!·.referenceCoverageKnown) = true then
      { all with coverage := all.coverage.limit .dependentQuery } else all
    match snapshot.fileStates[fileId]? with
    | none => all
    | some state =>
      if fileFilter state = true then
        match snapshot.fileInput fileId with
        | none => all
        | some input => all.extend (collectTemplateSemantics (snapshot.fileOwner fileId) input {})
      else all

/-- `all_semantics_inner`. -/
def allSemanticsInner (fileFilter : FileState → Bool) : SemanticFile :=
  let files := (snapshot.sourceFiles.toList.map Prod.fst).foldl
    (snapshot.takeFile ops fileFilter) {}
  snapshot.overlayDocuments.foldl (fun all entry =>
    match snapshot.documentSemantics ops entry.1 with
    | none => all
    | some semantic => all.extend semantic) files

/-- `all_semantics`. -/
def allSemantics : SemanticFile := snapshot.allSemanticsInner ops fun _ => true

/-- `all_semantics_for_symbol`. -/
def allSemanticsForSymbol (names : List Str) : SemanticFile :=
  snapshot.allSemanticsInner ops fun state =>
    state.symbolFactsDependency || (names.map toAsciiLowercase).any (mentions state.source)

/-- `document_semantic_workspace`: the facts of the document, then those of the other overlays. -/
def documentSemanticWorkspace (id : Str) (input : ParsedInput) : SemanticFile :=
  (snapshot.overlayDocuments.filter fun entry => entry.1 != id).foldl (fun all entry =>
    match snapshot.documentSemantics ops entry.1 with
    | none => all
    | some semantic =>
      { all with
        definitions := all.definitions ++ semantic.definitions
        references := all.references ++ semantic.references })
    (semanticData (snapshot.documentOwner ops id input) input)

end AnalysisSnapshot

/-! ## Candidates and winners -/

/-- `ResolutionDefinition`. -/
structure ResolutionDefinition where
  location : Location
  selectionRange : TextRange
  priority : Nat
  deriving DecidableEq

inductive Resolution where
  | unique (definition : ResolutionDefinition)
  | missing
  deriving DecidableEq

/-- `definition_selection_location`. -/
def definitionSelectionLocation (definition : ResolutionDefinition) : Location :=
  { definition.location with range := definition.selectionRange }

/-- `strip_suffix`, else the text. -/
def stripSuffixes (suffixes : List Str) (text : Str) : Str :=
  match suffixes.find? (·.isSuffixOf text) with
  | some suffix => text.take (text.length - suffix.length)
  | none => text

/-- What stands behind the last occurrence of a separator, nothing without one. -/
def afterLast (separator : Str) : Str → Str
  | [] => []
  | c :: rest =>
    if (rest.tails.any separator.isPrefixOf) = true then afterLast separator rest
    else if separator.isPrefixOf (c :: rest) = true then (c :: rest).drop separator.length
    else []

/-- `localisation_language`. -/
def localisationLanguage (path : Option Str) : Option Str :=
  path.bind fun path =>
    let segments := path.splitOn '/'
    let suffixes := [".yml".toList, ".yaml".toList]
    match segments.find? fun segment => "l_".toList.isPrefixOf segment && 2 < segment.length with
    | some segment => some (stripSuffixes suffixes (segment.drop 2))
    | none =>
      let language := stripSuffixes suffixes (afterLast "_l_".toList (segments.getLast?.getD []))
      if language = [] then none else some language

/-- `prefer_localisation_language_ordered`. -/
def preferLocalisationLanguageOrdered (candidates : List ResolutionDefinition)
    (languages : List Str) : List ResolutionDefinition :=
  if candidates.length < 2 then candidates
  else
    let preferred := languages.map fun language => candidates.filter fun candidate =>
      (localisationLanguage candidate.location.path).any (eqIgnoreAsciiCase · language)
    (preferred.find? fun found => !found.isEmpty).getD candidates

/-- `symbol_location_sort_key` behind the priority, the greatest first. -/
def candidateKey (candidate : ResolutionDefinition) : ℕᵒᵈ ×ₗ Str ×ₗ ℕ ×ₗ ℕ :=
  toLex (OrderDual.toDual candidate.priority, toLex (candidate.location.path.getD [],
    toLex (candidate.location.range.start, candidate.location.range.stop)))

/-- `sort_by` and `dedup_by` of the candidates. -/
def orderCandidates (candidates : List ResolutionDefinition) : List ResolutionDefinition :=
  (sortByKey candidateKey candidates).destutter fun kept next =>
    ¬ (kept.location = next.location ∧ kept.selectionRange = next.selectionRange)

/-- `resolution_order`. -/
def resolutionOrder (priority : Nat) (path : Option Str) (range selection : TextRange) :
    ℕ ×ₗ Str ×ₗ ℕ ×ₗ ℕ ×ₗ ℕ :=
  toLex (priority, toLex (path.getD [], toLex (range.start, toLex (range.stop, selection.start))))

/-- `retain_highest_and_order`. -/
def retainHighestAndOrder (candidates : List ResolutionDefinition) : List ResolutionDefinition :=
  let highest := (candidates.map (·.priority)).foldl max 0
  sortByKey (fun candidate => resolutionOrder candidate.priority candidate.location.path
    candidate.location.range candidate.selectionRange)
    (candidates.filter fun candidate => candidate.priority == highest)

/-- The last of the winners, if there are candidates. -/
def winner (candidates : List ResolutionDefinition) : Resolution :=
  match (retainHighestAndOrder candidates).getLast? with
  | some definition => .unique definition
  | none => .missing

namespace AnalysisSnapshot

/-- `definition_priority_for_file`. -/
def definitionPriorityForFile (fileId : Nat) : Nat :=
  match snapshot.sourceFiles[fileId]? with
  | none => 0
  | some file =>
    match snapshot.roots.find? fun root => root.id == file.rootId with
    | none => 0
    | some root => rootPriority root

/-- `definition_priority`. -/
def definitionPriority (definition : DefinitionInfo) : Nat :=
  match definition.owner.file with
  | some file => snapshot.definitionPriorityForFile file
  | none =>
    match (((definition.owner.document.bind fun id => snapshot.documents[id]?).bind (·.path)).bind
      fun path =>
      maxByKey (fun root => ops.osLen root.path)
        (snapshot.roots.filter fun root => ops.startsWith path root.path)) with
    | none => 20000
    | some root => rootPriority root

/-- What a definition of the semantic facts is as a candidate. -/
def resolutionDefinition (definition : DefinitionInfo) : ResolutionDefinition :=
  ⟨definition.location, definition.selectionRange, snapshot.definitionPriority ops definition⟩

/-- The function `index_definition`. -/
def indexDefinition (definition : Definition) : ResolutionDefinition where
  location := (snapshot.fileOwner definition.fileId).location definition.range
  selectionRange := definition.selectionRange
  priority := snapshot.definitionPriorityForFile definition.fileId

/-- `indexed_reference`. -/
def indexedReference (fileId : Nat) (reference : Reference) : ReferenceInternal :=
  ⟨reference.kind, reference.name, reference.range, snapshot.fileOwner fileId⟩

/-- `prefer_localisation_language_for_snapshot`. -/
def preferLocalisationLanguage (candidates : List ResolutionDefinition) :
    List ResolutionDefinition :=
  preferLocalisationLanguageOrdered candidates [snapshot.previewLanguage, "english".toList]

/-- The candidates of one kind, behind the preference for languages. -/
def preferLanguageOf (kind : Str) (candidates : List ResolutionDefinition) :
    List ResolutionDefinition :=
  if eqIgnoreAsciiCase kind "localisation".toList then
    snapshot.preferLocalisationLanguage candidates
  else candidates

/-- The candidates of the semantic facts. -/
def semanticCandidates (all : SemanticFile) (kind name : Str) : List ResolutionDefinition :=
  (all.definitions.filter fun definition =>
    definition.kind == kind && sameName definition.name name &&
      snapshot.sourceIsEffective ops definition.owner.document definition.owner.file &&
      definition.owner.file.all fun file =>
        decide (file ∉ snapshot.overlayFileIds ops) || definition.owner.document.isSome).map
    (snapshot.resolutionDefinition ops)

/-- The candidates of the index. -/
def indexCandidates (kind name : Str) : List ResolutionDefinition :=
  ((snapshot.index.definitionsFor kind name).filter fun definition =>
    decide (definition.fileId ∉ snapshot.overlayFileIds ops) &&
      snapshot.sourceIsEffective ops none (some definition.fileId)).map snapshot.indexDefinition

/-- `symbol_candidates`. -/
def symbolCandidates (all : SemanticFile) (kind name : Str) : List ResolutionDefinition :=
  snapshot.preferLanguageOf kind
    (orderCandidates (snapshot.semanticCandidates ops all kind name ++
      snapshot.indexCandidates ops kind name))

/-- `resolve_symbol`. -/
def resolveSymbol (all : SemanticFile) (kind name : Str) : Resolution :=
  winner (snapshot.symbolCandidates ops all kind name)

end AnalysisSnapshot

/-- `symbol_at`: the first reference of the document at the position, else the first definition. -/
def symbolAt (all : SemanticFile) (document : Str) (position : Nat) : Option (Str × Str) :=
  match all.references.find? fun reference =>
      reference.owner.document == some document && contains reference.range position with
  | some reference => some (reference.kind, reference.name)
  | none =>
    (all.definitions.find? fun definition =>
      definition.owner.document == some document && contains definition.selectionRange position).map
        fun definition => (definition.kind, definition.name)

/-! ## Local parameters -/

namespace HirFile

variable (hir : HirFile)

/-- `parameter_reference_at`; the references are partitioned at every position. -/
def parameterReferenceAt (position : Nat) : Option ParameterReference :=
  ((hir.parameterReferences.dropWhile fun reference => decide
    (reference.range.stop ≤ position)).head?).filter
    fun reference => decide (reference.range.start ≤ position) &&
      decide (position < reference.range.stop)

/-- `parameter_definitions_for_owner`. -/
def parameterDefinitionsForOwner (owner : TextRange) : List ParameterDefinition :=
  ((hir.parameterDefinitions.dropWhile fun definition =>
    decide (definition.range.start < owner.start)).takeWhile
    fun definition => decide (definition.range.start < owner.stop)).filter
      fun definition => definition.ownerRange == owner

/-- `parameter_references_for_owner`. -/
def parameterReferencesForOwner (owner : TextRange) : List ParameterReference :=
  ((hir.parameterReferences.dropWhile fun reference => decide
    (reference.range.start < owner.start)).takeWhile
    fun reference => decide (reference.range.start < owner.stop)).filter
      fun reference => reference.ownerRange == owner

/-- `local_parameter_target`. -/
def localParameterTarget (position : Nat) : Option (ParameterDefinition × ParameterReference) :=
  (hir.parameterReferenceAt position).bind fun reference =>
    ((hir.parameterDefinitionsForOwner reference.ownerRange).find? fun definition =>
      eqIgnoreAsciiCase definition.name reference.name).map fun definition =>
        (definition, reference)

end HirFile

/-! ## Whose text a fact is in -/

/-- All facts of one owner. -/
structure SemanticFile.Of (owner : Owner) (data : SemanticFile) : Prop where
  definitions : ∀ definition ∈ data.definitions, definition.owner = owner
  references : ∀ reference ∈ data.references, reference.owner = owner

namespace SemanticFile.Of

variable {owner : Owner} {data : SemanticFile}

theorem empty : SemanticFile.Of owner {} where
  definitions _ h := absurd h List.not_mem_nil
  references _ h := absurd h List.not_mem_nil

theorem define (h : data.Of owner) {definition : DefinitionInfo}
    (hdefinition : definition.owner = owner) : (data.define definition).Of owner where
  definitions other hother := by
    rcases List.mem_append.mp hother with hother | hother
    · exact h.definitions other hother
    · rw [List.mem_singleton.mp hother, hdefinition]
  references := h.references

theorem refer (h : data.Of owner) {reference : ReferenceInternal}
    (hreference : reference.owner = owner) : (data.refer reference).Of owner where
  definitions := h.definitions
  references other hother := by
    rcases List.mem_append.mp hother with hother | hother
    · exact h.references other hother
    · rw [List.mem_singleton.mp hother, hreference]

theorem takeConsumed (h : data.Of owner) (item : Consumed) :
    (Ide.takeConsumed owner data item).Of owner := by
  cases item with
  | call kind name range =>
    cases range with
    | none => exact ⟨h.definitions, h.references⟩
    | some range => exact h.refer rfl
  | reference kind name range =>
    cases range with
    | none => exact ⟨h.definitions, h.references⟩
    | some range => exact h.refer rfl
  | definition kind name selection range =>
    cases selection with
    | none => exact ⟨h.definitions, h.references⟩
    | some selection => exact h.define rfl

theorem foldl_takeConsumed (items : List Consumed) : ∀ {data : SemanticFile}, data.Of owner →
    (items.foldl (Ide.takeConsumed owner) data).Of owner := by
  induction items with
  | nil => exact fun h => h
  | cons item items ih => exact fun h => ih (h.takeConsumed item)

theorem foldl_consumptions (consumptions : List Consumption) :
    ∀ {data : SemanticFile}, data.Of owner → (consumptions.foldl (fun data consumption =>
      consumption.items.foldl (Ide.takeConsumed owner)
        { data with coverage := data.coverage.merge consumption.coverage }) data).Of owner := by
  induction consumptions with
  | nil => exact fun h => h
  | cons consumption consumptions ih =>
    exact fun h => ih (foldl_takeConsumed consumption.items ⟨h.definitions, h.references⟩)

theorem collectTemplateSemantics (h : data.Of owner) (input : ParsedInput) :
    (Ide.collectTemplateSemantics owner input data).Of owner := by
  unfold Ide.collectTemplateSemantics
  split_ifs
  · have hfold := foldl_consumptions input.consumptions h
    constructor
    · intro definition hdefinition
      exact hfold.definitions definition
        ((StableSort.perm_sortByKey _ _).subset ((List.destutter_sublist _ _).subset hdefinition))
    · intro reference hreference
      exact hfold.references reference
        ((StableSort.perm_sortByKey _ _).subset ((List.destutter_sublist _ _).subset hreference))
  · exact h

theorem takeHir (h : data.Of owner) (hir : HirFile) : (Ide.takeHir owner hir data).Of owner where
  definitions definition hdefinition := by
    rcases List.mem_append.mp hdefinition with hdefinition | hdefinition
    · exact h.definitions definition hdefinition
    · obtain ⟨_, -, rfl⟩ := List.mem_map.mp hdefinition
      rfl
  references reference hreference := by
    rcases List.mem_append.mp hreference with hreference | hreference
    · exact h.references reference hreference
    · obtain ⟨_, -, rfl⟩ := List.mem_map.mp hreference
      rfl

end SemanticFile.Of

theorem of_semanticData (owner : Owner) (input : ParsedInput) :
    (semanticData owner input).Of owner := by
  unfold semanticData
  cases input.hir with
  | none => exact SemanticFile.Of.empty.collectTemplateSemantics input
  | some hir => exact (SemanticFile.Of.empty.takeHir hir).collectTemplateSemantics input

namespace AnalysisSnapshot

/-- The references that one file gives to the workspace, if its text is searched. -/
def fileReferences (fileFilter : FileState → Bool) (fileId : Nat) : List ReferenceInternal :=
  (snapshot.takeFile ops fileFilter {} fileId).references

/-- The definitions that one file gives to the workspace. -/
def fileDefinitions (fileFilter : FileState → Bool) (fileId : Nat) : List DefinitionInfo :=
  (snapshot.takeFile ops fileFilter {} fileId).definitions

omit [Std.TransOrd Path] [Std.LawfulEqOrd Path] in
theorem references_takeFile (fileFilter : FileState → Bool) (all : SemanticFile) (fileId : Nat) :
    (snapshot.takeFile ops fileFilter all fileId).references =
      all.references ++ snapshot.fileReferences ops fileFilter fileId := by
  unfold fileReferences takeFile
  split_ifs <;> cases snapshot.fileStates[fileId]? <;> (try simp only [List.append_nil]) <;>
    split_ifs <;> (try simp only [List.append_nil]) <;> cases snapshot.fileInput fileId <;>
    simp [SemanticFile.extend]

omit [Std.TransOrd Path] [Std.LawfulEqOrd Path] in
theorem definitions_takeFile (fileFilter : FileState → Bool) (all : SemanticFile) (fileId : Nat) :
    (snapshot.takeFile ops fileFilter all fileId).definitions =
      all.definitions ++ snapshot.fileDefinitions ops fileFilter fileId := by
  unfold fileDefinitions takeFile
  split_ifs <;> cases snapshot.fileStates[fileId]? <;> (try simp only [List.append_nil]) <;>
    split_ifs <;> (try simp only [List.append_nil]) <;> cases snapshot.fileInput fileId <;>
    simp [SemanticFile.extend]

omit [Std.TransOrd Path] [Std.LawfulEqOrd Path] in
theorem foldl_takeFile (fileFilter : FileState → Bool) (files : List Nat) :
    ∀ all : SemanticFile,
      (files.foldl (snapshot.takeFile ops fileFilter) all).references =
          all.references ++ files.flatMap (snapshot.fileReferences ops fileFilter) ∧
        (files.foldl (snapshot.takeFile ops fileFilter) all).definitions =
          all.definitions ++ files.flatMap (snapshot.fileDefinitions ops fileFilter) := by
  induction files with
  | nil => exact fun all => ⟨(List.append_nil _).symm, (List.append_nil _).symm⟩
  | cons fileId files ih =>
    intro all
    obtain ⟨hreferences, hdefinitions⟩ := ih (snapshot.takeFile ops fileFilter all fileId)
    constructor
    · rw [List.foldl_cons, hreferences, references_takeFile, List.flatMap_cons, List.append_assoc]
    · rw [List.foldl_cons, hdefinitions, definitions_takeFile, List.flatMap_cons, List.append_assoc]

/-- The facts of an open document, none without an input. -/
def documentFacts (entry : Str × Document Path) : SemanticFile :=
  (snapshot.documentSemantics ops entry.1).getD {}

omit [Std.TransOrd Path] [Std.LawfulEqOrd Path] in
theorem foldl_documents (documents : List (Str × Document Path)) :
    ∀ all : SemanticFile,
      (documents.foldl (fun all entry =>
          match snapshot.documentSemantics ops entry.1 with
          | none => all
          | some semantic => all.extend semantic) all).references =
          all.references ++ documents.flatMap
            (fun entry => (snapshot.documentFacts ops entry).references) ∧
        (documents.foldl (fun all entry =>
          match snapshot.documentSemantics ops entry.1 with
          | none => all
          | some semantic => all.extend semantic) all).definitions =
          all.definitions ++ documents.flatMap
            (fun entry => (snapshot.documentFacts ops entry).definitions) := by
  induction documents with
  | nil => exact fun all => ⟨(List.append_nil _).symm, (List.append_nil _).symm⟩
  | cons entry documents ih =>
    intro all
    rw [List.foldl_cons, List.flatMap_cons, List.flatMap_cons]
    cases hsemantics : snapshot.documentSemantics ops entry.1 with
    | none =>
      obtain ⟨hreferences, hdefinitions⟩ := ih all
      simp [hreferences, hdefinitions, documentFacts, hsemantics]
    | some semantic =>
      obtain ⟨hreferences, hdefinitions⟩ := ih (all.extend semantic)
      have hfacts : snapshot.documentFacts ops entry =
        semantic := by rw [documentFacts, hsemantics]; rfl
      rw [hreferences, hdefinitions, hfacts]
      exact ⟨List.append_assoc _ _ _, List.append_assoc _ _ _⟩

omit [Std.TransOrd Path] [Std.LawfulEqOrd Path] in
theorem references_allSemanticsInner (fileFilter : FileState → Bool) :
    (snapshot.allSemanticsInner ops fileFilter).references =
      (snapshot.sourceFiles.toList.map Prod.fst).flatMap (snapshot.fileReferences ops fileFilter) ++
        snapshot.overlayDocuments.flatMap fun entry =>
          (snapshot.documentFacts ops entry).references := by
  unfold allSemanticsInner
  rw [(foldl_documents ops snapshot _ _).1, (foldl_takeFile ops snapshot fileFilter _ _).1]
  rfl

omit [Std.TransOrd Path] [Std.LawfulEqOrd Path] in
theorem definitions_allSemanticsInner (fileFilter : FileState → Bool) :
    (snapshot.allSemanticsInner ops fileFilter).definitions =
      (snapshot.sourceFiles.toList.map Prod.fst).flatMap
        (snapshot.fileDefinitions ops fileFilter) ++
        snapshot.overlayDocuments.flatMap fun entry =>
          (snapshot.documentFacts ops entry).definitions := by
  unfold allSemanticsInner
  rw [(foldl_documents ops snapshot _ _).2, (foldl_takeFile ops snapshot fileFilter _ _).2]
  rfl

omit [Std.TransOrd Path] [Std.LawfulEqOrd Path] in
theorem of_documentSemantics {id : Str} {data : SemanticFile}
    (h : snapshot.documentSemantics ops id = some data) :
    ∃ input, snapshot.documentInput id = some input ∧
    data.Of (snapshot.documentOwner ops id input) := by
  obtain ⟨input, hinput, rfl⟩ := Option.map_eq_some_iff.mp h
  exact ⟨input, hinput, of_semanticData _ input⟩

end AnalysisSnapshot

/-! ## Names without case -/

theorem sameName_iff {left right : Str} : sameName left right = true ↔
    left.map Char.toLower = right.map Char.toLower :=
  beq_iff_eq

theorem sameName_congr {left right : Str} (h : sameName left right = true) (name : Str) :
    sameName name left = sameName name right := by
  unfold sameName eqIgnoreAsciiCase
  rw [sameName_iff.mp h]

namespace AnalysisSnapshot

omit [Std.LawfulEqOrd Path] in
/-- A symbol is found under each spelling of its name. -/
theorem resolveSymbol_congr (all : SemanticFile) (kind : Str) {left right : Str}
    (h : sameName left right = true) :
    snapshot.resolveSymbol ops all kind left = snapshot.resolveSymbol ops all kind right := by
  have hname : Workspace.lookupName left = Workspace.lookupName right := sameName_iff.mp h
  unfold resolveSymbol symbolCandidates semanticCandidates indexCandidates
    WorkspaceIndex.definitionsFor WorkspaceIndex.definitionBucket
  simp only [sameName_congr h, hname]

end AnalysisSnapshot

end Snapshot

end ParadoxCode.Ide
