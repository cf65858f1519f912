import ParadoxCode.Format.Splice
import ParadoxCode.Ide.References

/-!
# Rename

`navigation.rs`: the edits that give a symbol or a parameter another name. The declaration and the
references that resolve to it are overwritten, each at its range.

A fact of `ir_lowering.rs` may bear a name that is derived from a shorter text: that of a binding
(`add_bindings`), or one with the prefix that a matcher strips (`reference_symbol_name`). Its range
is that of the text.
-/

namespace ParadoxCode.Ide

open Dedup
open Places (LaidOut)
open Engine.Store (Definition Reference)
open Format (eqIgnoreAsciiCase TextEdit Descending InText Overwrites landed)
open StableSort (sortByKey perm_sortByKey pairwise_sortByKey mem_dropWhile_iff mem_takeWhile_iff)
open Workspace.SourceResolution (PathOperations SourceRoot Document maxByKey)

/-! ## Names of facts -/

/-- `template.replace('$', name)`. -/
def fillTemplate (template name : Str) : Str :=
  template.flatMap fun c => if c = '$' then name else [c]

/-- A binding of a type: the templates of the names that go with a definition. -/
structure Binding where
  loc : Option Str
  sprite : Option Str
  required : Bool

/-- `add_bindings`, as far as it publishes references. -/
def addBindings (bindings : List Binding) (name : Str) (range : TextRange) : List Reference :=
  (bindings.filter (·.required)).flatMap fun binding =>
    [("localisation".toList, binding.loc), ("sprite".toList, binding.sprite)].filterMap fun entry =>
      entry.2.map fun template => ⟨entry.1, fillTemplate template name, range⟩

/-- Whether a text is a name, but for case and a pair of quotes. -/
def Spells (name : Str) (text : Option Str) : Prop := ∃ word, text = some word ∧
    sameName (unquote word) name = true

/-! ## Parameters -/

/-- A use of a parameter in the text, with its delimiter. -/
structure ParameterOccurrence where
  reference : ParameterReference
  delimiter : Char

/-- `infer_parameter_definition`: the first use of a name defines it. -/
def inferParameterDefinition (definitions : List (ParameterDefinition × Char))
    (occurrence : ParameterOccurrence) : List (ParameterDefinition × Char) :=
  let reference := occurrence.reference
  if (definitions.any fun definition =>
      definition.1.ownerRange == reference.ownerRange && definition.2 == occurrence.delimiter &&
        eqIgnoreAsciiCase definition.1.name reference.name) = true then definitions
  else
    definitions ++ [(⟨reference.name, reference.range, reference.nameRange, reference.ownerRange⟩,
      occurrence.delimiter)]

/-- `lower_parameters`, behind the search for uses. -/
def lowerParameters (occurrences : List ParameterOccurrence) :
    List ParameterDefinition × List ParameterReference :=
  (sortByKey (·.range.start) ((occurrences.foldl inferParameterDefinition []).map Prod.fst),
    sortByKey (·.range.start) (occurrences.map (·.reference)))

/-- The parameters of a HIR come from its text. -/
def HirFile.Lowered (hir : HirFile) : Prop :=
  ∃ occurrences, (hir.parameterDefinitions, hir.parameterReferences) = lowerParameters occurrences

/-- What is defined is used. -/
theorem mem_foldl_inferParameterDefinition (occurrences : List ParameterOccurrence) :
    ∀ {definitions : List (ParameterDefinition × Char)} {definition : ParameterDefinition × Char},
      definition ∈ occurrences.foldl inferParameterDefinition definitions →
        definition ∈ definitions ∨ ∃ occurrence ∈ occurrences, occurrence.reference =
          ⟨definition.1.name, definition.1.range, definition.1.nameRange,
            definition.1.ownerRange⟩ := by
  induction occurrences with
  | nil => exact fun h => .inl h
  | cons occurrence occurrences ih =>
    intro definitions definition h
    rcases ih h with h | ⟨other, hother, heq⟩
    · unfold inferParameterDefinition at h
      dsimp only at h
      split_ifs at h
      · exact .inl h
      · rcases List.mem_append.mp h with h | h
        · exact .inl h
        · rw [List.mem_singleton] at h
          subst h
          exact .inr ⟨occurrence, List.mem_cons_self, rfl⟩
    · exact .inr ⟨other, List.mem_cons_of_mem _ hother, heq⟩

/-- The window of a definition has its uses that start in it. -/
theorem HirFile.Lowered.mem_iff {hir : HirFile} (h : hir.Lowered) {owner : TextRange}
    {reference : ParameterReference} :
    reference ∈ hir.parameterReferencesForOwner owner ↔ reference ∈ hir.parameterReferences ∧
      reference.ownerRange = owner ∧ owner.start ≤ reference.range.start ∧
        reference.range.start < owner.stop := by
  obtain ⟨occurrences, hlowered⟩ := h
  have hordered : hir.parameterReferences.Pairwise fun a b => a.range.start ≤ b.range.start := by
    rw [(Prod.mk.inj hlowered).2]
    exact pairwise_sortByKey _ _
  unfold HirFile.parameterReferencesForOwner
  rw [List.mem_filter, beq_iff_eq, mem_takeWhile_iff (hordered.sublist (List.dropWhile_sublist _)),
    mem_dropWhile_iff hordered]
  tauto

/-- The use that defines a parameter is one of the uses in its definition. -/
theorem HirFile.Lowered.declared {hir : HirFile} (h : hir.Lowered) {owner : TextRange}
    {definition : ParameterDefinition}
    (hdefinition : definition ∈ hir.parameterDefinitionsForOwner owner) :
    ⟨definition.name, definition.range, definition.nameRange, owner⟩ ∈
      hir.parameterReferencesForOwner owner := by
  rw [h.mem_iff]
  obtain ⟨occurrences, hlowered⟩ := h
  obtain ⟨hdefinitions, hreferences⟩ := Prod.mk.inj hlowered
  have hordered : hir.parameterDefinitions.Pairwise fun a b => a.range.start ≤ b.range.start := by
    rw [hdefinitions]
    exact pairwise_sortByKey _ _
  obtain ⟨hwindow, howner⟩ := List.mem_filter.mp hdefinition
  rw [beq_iff_eq] at howner
  obtain ⟨hbehind, hstop⟩ := (mem_takeWhile_iff (hordered.sublist (List.dropWhile_sublist _))).mp
    hwindow
  obtain ⟨hmem, hstart⟩ := (mem_dropWhile_iff hordered).mp hbehind
  refine ⟨?_, rfl, hstart, hstop⟩
  rw [hdefinitions, (perm_sortByKey _ _).mem_iff, List.mem_map] at hmem
  obtain ⟨entry, hentry, rfl⟩ := hmem
  rcases mem_foldl_inferParameterDefinition occurrences hentry with
    hentry | ⟨occurrence, hoccurrence, heq⟩
  · cases hentry
  have huse : occurrence.reference ∈ hir.parameterReferences := by
    rw [hreferences, (perm_sortByKey _ _).mem_iff]
    exact List.mem_map_of_mem hoccurrence
  rwa [heq, howner] at huse

/-! ## The plan -/

/-- Why a rename is rejected. -/
inductive RenameError where
  | invalidName
  | noSymbol
  | readOnly
  | conflict
  | unresolved
  | ambiguous
  | incomplete
  deriving DecidableEq

/-- `RenameTarget`. -/
structure RenameTarget where
  kind : Str
  name : Str
  definition : ResolutionDefinition

structure WorkspaceTextEdit where
  location : Location
  newText : Str
  deriving DecidableEq

/-- `is_word_byte`. -/
def isWordByte (byte : UInt8) : Bool :=
  (0x30 ≤ byte && byte ≤ 0x39) || (0x41 ≤ byte && byte ≤ 0x5A) || (0x61 ≤ byte && byte ≤ 0x7A) ||
    byte == 0x5F || byte == 0x2D || byte == 0x2E || byte == 0x40 || byte == 0x24

/-- `valid_rename_name`. -/
def validRenameName (name : Str) : Bool := !name.isEmpty && (Utf8.encode name).all isWordByte

/-- `valid_parameter_name`. -/
def validParameterName (name : Str) : Bool :=
  !name.isEmpty && (Utf8.encode name).all fun byte => byte != 0x24 && isWordByte byte

/-- `edit_target_key`: the document, else the file, else the path. -/
def editTargetKey (location : Location) : ℕ ×ₗ Str :=
  match location.document, location.file with
  | some document, _ => toLex (0, document)
  | none, some file => toLex (1, Nat.toDigits 10 file)
  | none, none => toLex (2, location.path.getD [])

/-- The greatest start first, then the greatest end. -/
def rangeKey (edit : WorkspaceTextEdit) : ℕᵒᵈ ×ₗ ℕᵒᵈ :=
  toLex (OrderDual.toDual edit.location.range.start, OrderDual.toDual edit.location.range.stop)

/-- The order of the edits of a symbol. -/
def editKey (edit : WorkspaceTextEdit) : (ℕ ×ₗ Str) ×ₗ ℕᵒᵈ ×ₗ ℕᵒᵈ :=
  toLex (editTargetKey edit.location, rangeKey edit)

/-- The uses of a parameter in its definition. -/
def usesOf (hir : HirFile) (definition : ParameterDefinition) : List ParameterReference :=
  (hir.parameterReferencesForOwner definition.ownerRange).filter fun reference =>
    eqIgnoreAsciiCase reference.name definition.name

/-- The edits of a parameter. -/
def parameterEdits (owner : Owner) (uses : List ParameterReference) (newName : Str) :
    List WorkspaceTextEdit :=
  (sortByKey rangeKey (uses.map fun reference => ⟨owner.location reference.nameRange,
    newName⟩)).destutter
    fun kept next => kept.location ≠ next.location

/-- The edits of a symbol. -/
def symbolEdits (locations : List Location) (newName : Str) : List WorkspaceTextEdit :=
  (sortByKey editKey (locations.map fun location => ⟨location, newName⟩)).destutter
    fun kept next => ¬ (kept.location = next.location ∧ kept.newText = next.newText)

section Rename

variable {Path : Type} [Ord Path] [Std.TransOrd Path]
  (ops : PathOperations Path) (snapshot : AnalysisSnapshot Path)

namespace AnalysisSnapshot

/-- `root_for_path`: the longest root that the path starts with. -/
def rootForPath (path : Path) : Option (SourceRoot Path) :=
  maxByKey (fun root => ops.osLen root.path) (snapshot.roots.filter fun root =>
    ops.startsWith path root.path)

/-- `writable_location`. -/
def writableLocation (location : Location) : Bool :=
  match location.file.bind fun file => snapshot.sourceFiles[file]? with
  | some sourceFile => (snapshot.roots.find? fun root => root.id == sourceFile.rootId).any
      snapshot.isProject
  | none =>
    match location.document.bind fun document => snapshot.documents[document]? with
    | some document => decide (document.source = .overlay) && document.path.all fun path =>
        (snapshot.rootForPath ops path).any snapshot.isProject
    | none => false

/-- `rename_target`: of several candidates with the highest priority none is renamed. -/
def renameTarget (document : Str) (input : ParsedInput) (position : Nat) :
    Except RenameError RenameTarget :=
  let all := snapshot.documentSemanticWorkspace ops document input
  match symbolAt all document position with
  | none => .error .noSymbol
  | some (kind, name) =>
    match retainHighestAndOrder (snapshot.symbolCandidates ops all kind name) with
    | [] => .error .unresolved
    | [definition] =>
      if snapshot.writableLocation ops definition.location = true then .ok ⟨kind, name, definition⟩
      else .error .readOnly
    | _ :: _ :: _ => .error .ambiguous

/-- `check_rename_conflict`: a definition of the new name with the same or a higher priority. -/
def renameConflicts (all : SemanticFile) (target : RenameTarget) (newName : Str) : Bool :=
  (all.definitions.any fun definition =>
    isOf target.kind newName definition.kind definition.name &&
      definition.location != target.definition.location &&
        decide (target.definition.priority ≤ snapshot.definitionPriority ops definition)) ||
  snapshot.index.definitionsIter.any fun definition =>
    isOf target.kind newName definition.kind definition.name &&
      !(some definition.fileId == target.definition.location.file &&
        definition.range == target.definition.location.range) &&
          decide (target.definition.priority ≤ snapshot.definitionPriorityForFile definition.fileId)

/-- A reference in the text on disk of a file that an open document owns. -/
def hidden (reference : ReferenceInternal) : Bool :=
  reference.owner.document.isNone && reference.owner.file.any fun file =>
    decide (file ∈ snapshot.overlayFileIds ops)

/-- `consider_reference`: where a reference is edited. -/
def renameReference (all : SemanticFile) (target : RenameTarget) (reference : ReferenceInternal) :
    Option Location :=
  if isOf target.kind target.name reference.kind reference.name = true then
    if snapshot.hidden ops reference = true then none
    else
      match snapshot.resolveSymbol ops all target.kind reference.name with
      | .missing => none
      | .unique candidate =>
        if candidate.location = target.definition.location ∧
            snapshot.writableLocation ops reference.location = true then some reference.location
        else none
  else none

/-- The semantic facts that a rename reads: those with the old name and those with the new one. -/
def renameWorkspace (target : RenameTarget) (newName : Str) : SemanticFile :=
  snapshot.allSemanticsForSymbol ops [target.name, newName]

/-- The locations on the way to the edits. -/
def renameLocations (target : RenameTarget) (newName : Str) : List Location :=
  let consider := snapshot.renameReference ops (snapshot.renameWorkspace ops target newName) target
  definitionSelectionLocation target.definition ::
    ((snapshot.renameWorkspace ops target newName).references.filterMap consider ++
      (snapshot.indexedReferences target.kind target.name).filterMap consider ++
        (snapshot.lazyReferences target.kind target.name).filterMap consider)

/-- The part of `rename` for a symbol. -/
def renameSymbol (target : RenameTarget) (newName : Str) :
    Except RenameError (List WorkspaceTextEdit) :=
  let all := snapshot.renameWorkspace ops target newName
  if target.definition.selectionRange.start = target.definition.selectionRange.stop then
    .error .incomplete
  else if all.coverage.isKnown = false ∨
      (toAsciiLowercase target.kind, toAsciiLowercase target.name) ∈ all.blockedEdits then
        .error .incomplete
  else if snapshot.renameConflicts ops all target newName = true then .error .conflict
  else .ok (symbolEdits (snapshot.renameLocations ops target newName) newName)

/-- The part of `rename` for a parameter. -/
def renameParameter (owner : Owner) (hir : HirFile) (definition : ParameterDefinition)
    (newName : Str) : Except RenameError (List WorkspaceTextEdit) :=
  if validParameterName newName = false then .error .invalidName
  else if snapshot.writableLocation ops (owner.location definition.nameRange) = false then
    .error .readOnly
  else if ((hir.parameterDefinitionsForOwner definition.ownerRange).any fun candidate =>
      candidate.nameRange != definition.nameRange && eqIgnoreAsciiCase candidate.name newName) =
        true then
    .error .conflict
  else .ok (parameterEdits owner (usesOf hir definition) newName)

/-- The parameter at a position, with the HIR. -/
def parameterAt (input : ParsedInput) (position : Nat) : Option (HirFile × ParameterDefinition) :=
  input.hir.bind fun hir => (hir.localParameterTarget position).map fun found => (hir, found.1)

/-- `rename`. -/
def rename (document : Str) (position : Nat) (newName : Str) :
    Except RenameError (List WorkspaceTextEdit) :=
  if validRenameName newName = false then .error .invalidName
  else
    match snapshot.documentInput document with
    | none => .error .noSymbol
    | some input =>
      match parameterAt input position with
      | some (hir, definition) =>
        snapshot.renameParameter ops (snapshot.documentOwner ops document input) hir
          definition newName
      | none =>
        match snapshot.renameTarget ops document input position with
        | .error error => .error error
        | .ok target => snapshot.renameSymbol ops target newName

end AnalysisSnapshot

/-! ## What a rename is about -/

/-- A fact in the text of its owner. -/
structure Occurrence where
  location : Location
  name : Str

/-- The old name, the declaration, the references in live text that resolve to it, and those among
them that a search for the names meets. -/
structure Subject where
  name : Str
  declaration : Location
  references : Set Occurrence
  met : Set Occurrence

/-- All locations. -/
def Subject.locations (subject : Subject) : Set Location :=
  insert subject.declaration (Occurrence.location '' subject.references)

namespace AnalysisSnapshot

/-- The name of a target resolves to its declaration. -/
def Resolves (target : RenameTarget) (newName : Str) : Prop :=
  ∃ candidate, snapshot.resolveSymbol ops (snapshot.renameWorkspace ops target newName)
    target.kind target.name = .unique candidate ∧ candidate.location = target.definition.location

/-- The references of a target in live text, in all files or in those that are searched. -/
def occurrences (target : RenameTarget) (newName : Str) (searched : Nat → Prop) : Set Occurrence :=
  {occurrence | snapshot.Resolves ops target newName ∧ ∃ reference,
    snapshot.Live ops searched target.kind target.name reference ∧
      occurrence = ⟨reference.location, reference.name⟩}

def symbolSubject (target : RenameTarget) (newName : Str) : Subject where
  name := target.name
  declaration := definitionSelectionLocation target.definition
  references := snapshot.occurrences ops target newName fun _ => True
  met := snapshot.occurrences ops target newName (snapshot.Searched [target.name, newName])

/-- The uses of a parameter of a scripted definition; those that start in it are met. -/
def parameterSubject (owner : Owner) (hir : HirFile) (definition : ParameterDefinition) :
    Subject where
  name := definition.name
  declaration := owner.location definition.nameRange
  references := {occurrence | ∃ reference ∈ hir.parameterReferences,
    reference.ownerRange = definition.ownerRange ∧ sameName reference.name definition.name = true ∧
      occurrence = ⟨owner.location reference.nameRange, reference.name⟩}
  met := {occurrence | ∃ reference ∈ hir.parameterReferences,
    reference.ownerRange = definition.ownerRange ∧ sameName reference.name definition.name = true ∧
      definition.ownerRange.start ≤ reference.range.start ∧
        reference.range.start < definition.ownerRange.stop ∧
          occurrence = ⟨owner.location reference.nameRange, reference.name⟩}

/-- What the rename at a position is about. -/
def subjectAt (document : Str) (position : Nat) (newName : Str) : Option Subject :=
  (snapshot.documentInput document).bind fun input =>
    match parameterAt input position with
    | some (hir, definition) => some (parameterSubject (snapshot.documentOwner ops document input)
        hir definition)
    | none =>
      match snapshot.renameTarget ops document input position with
      | .error _ => none
      | .ok target => some (snapshot.symbolSubject ops target newName)

/-- The live text of the document or the file that a location is in. -/
def sourceText (location : Location) : Option Str :=
  match location.document with
  | some document => (snapshot.documentInput document).map (·.source)
  | none => (location.file.bind snapshot.fileInput).map (·.source)

/-- The current text of a location. -/
def textAt (location : Location) : Option Str :=
  (snapshot.sourceText location).bind fun source => getText source location.range.start
    location.range.stop

/-- The path that a location is written to. -/
def physicalPath (location : Location) : Option Path :=
  match location.document with
  | some document => (snapshot.documents[document]?.bind (·.path)).map ops.normalize
  | none => (location.file.bind fun file => snapshot.sourceFiles[file]?).map (·.physicalPath)

end AnalysisSnapshot

/-- Whether two locations are in one document or, without documents, in one file. -/
def inOneText (left right : Location) : Bool :=
  left.document == right.document && (right.document.isSome || left.file == right.file)

theorem inOneText_iff {left right : Location} : inOneText left right = true ↔
    left.document = right.document ∧ (right.document = none → left.file = right.file) := by
  unfold inOneText
  rw [Bool.and_eq_true, beq_iff_eq, Bool.or_eq_true, beq_iff_eq]
  cases right.document <;> simp

theorem inOneText_comm {left right : Location} (h : inOneText left right = true) :
    inOneText right left = true := by
  obtain ⟨hdocument, hfile⟩ := inOneText_iff.mp h
  exact inOneText_iff.mpr ⟨hdocument.symm, fun hnone => (hfile (hdocument ▸ hnone)).symm⟩

/-- The edits of a plan in the text of a location. -/
def editsOf (edits : List WorkspaceTextEdit) (location : Location) : List TextEdit :=
  (edits.filter fun edit => inOneText edit.location location).map fun edit =>
    ⟨edit.location.range, edit.newText⟩

namespace AnalysisSnapshot

/-- The text of a location behind the plan. -/
def textAfter (edits : List WorkspaceTextEdit) (location : Location) : Option Str :=
  (snapshot.sourceText location).bind fun source => landed source (editsOf edits location)
    location.range

end AnalysisSnapshot

/-! ## When a plan touches spellings only -/

/-- Ranges that do not overlap. -/
def Apart (left right : TextRange) : Prop := left.stop ≤ right.start ∨ right.stop ≤ left.start

namespace AnalysisSnapshot

/-- A plan overwrites spellings of the old name, and behind it the subject has the new one. -/
structure Respells (subject : Subject) (newName : Str) (edits : List WorkspaceTextEdit) : Prop where
  spelled : ∀ edit ∈ edits, Spells subject.name (snapshot.textAt edit.location)
  apart : edits.Pairwise fun left right =>
    inOneText left.location right.location = true → Apart left.location.range right.location.range
  oneDocument : ∀ left ∈ edits, ∀ right ∈ edits, ∀ path,
    snapshot.physicalPath ops left.location = some path →
      snapshot.physicalPath ops right.location = some path →
      left.location.document = right.location.document
  renamed : ∀ location ∈ subject.locations, Spells newName (snapshot.textAfter edits location)

/-- The places that are overwritten: the declaration and the references that are met and can be
written. -/
def edited (subject : Subject) : Set Location :=
  insert subject.declaration {location | snapshot.writableLocation ops location = true ∧
    ∃ occurrence ∈ subject.met, occurrence.location = location}

/-- The ranges of these places in the text of a location. -/
def editedRanges (subject : Subject) (location : Location) : Set TextRange :=
  {range | ∃ place ∈ snapshot.edited ops subject, inOneText place location = true ∧
    place.range = range}

/-- When the facts of a subject can be renamed where they stand. -/
structure Authored (subject : Subject) (newName : Str) : Prop where
  declared : Spells subject.name (snapshot.textAt subject.declaration)
  /-- No reference that is overwritten has a name that is derived from its text. -/
  own : ∀ occurrence ∈ subject.met, snapshot.writableLocation ops occurrence.location = true →
    Spells occurrence.name (snapshot.textAt occurrence.location)
  /-- Nor does one of the places overlap another. -/
  apart : ∀ left ∈ snapshot.edited ops subject, ∀ right ∈ snapshot.edited ops subject,
    inOneText left right = true → left ≠ right → Apart left.range right.range
  /-- No path has its text in two documents. -/
  oneDocument : ∀ left ∈ snapshot.edited ops subject, ∀ right ∈ snapshot.edited ops subject, ∀ path,
    snapshot.physicalPath ops left = some path → snapshot.physicalPath ops right = some path →
      left.document = right.document
  /-- References that cannot be written or are not met have the new name, where the places of their
  text are overwritten. -/
  others : ∀ occurrence ∈ subject.references, occurrence.location ∉ snapshot.edited ops subject →
    ∀ plan : List TextEdit,
      Overwrites plan (snapshot.editedRanges ops subject occurrence.location) newName →
      Spells newName ((snapshot.sourceText occurrence.location).bind fun source =>
        landed source plan occurrence.location.range)

/-- What a plan has to do with its subject. -/
structure Planned (subject : Subject) (newName : Str) (edits : List WorkspaceTextEdit) : Prop where
  word : unquote newName = newName
  newText : ∀ edit ∈ edits, edit.newText = newName
  locations : ∀ location, location ∈ edits.map WorkspaceTextEdit.location ↔
    location ∈ snapshot.edited ops subject
  met : subject.met ⊆ subject.references
  names : ∀ occurrence ∈ subject.met, sameName occurrence.name subject.name = true
  owners : ∀ left ∈ subject.locations, ∀ right ∈ subject.locations, inOneText left right = true →
    left.document = right.document ∧ left.file = right.file ∧ left.path = right.path
  ordered : edits.Pairwise fun left right =>
    inOneText left.location right.location = true → rangeKey left ≤ rangeKey right
  nodup : edits.Nodup

omit [Std.TransOrd Path]

variable {ops snapshot}

theorem writableLocation_congr {left right : Location} (hdocument : left.document = right.document)
    (hfile : left.file = right.file) :
    snapshot.writableLocation ops left = snapshot.writableLocation ops right := by
  unfold writableLocation
  rw [hdocument, hfile]

theorem sourceText_congr {left right : Location} (hdocument : left.document = right.document)
    (hfile : left.file = right.file) : snapshot.sourceText left = snapshot.sourceText right := by
  unfold sourceText
  rw [hdocument, hfile]

namespace Planned

variable {subject : Subject} {newName : Str} {edits : List WorkspaceTextEdit}

theorem mem_locations_of_edited (h : snapshot.Planned ops subject newName edits)
    {location : Location}
    (hlocation : location ∈ snapshot.edited ops subject) : location ∈ subject.locations := by
  rcases hlocation with rfl | ⟨-, occurrence, hoccurrence, rfl⟩
  · exact Set.mem_insert _ _
  · exact Set.mem_insert_of_mem _ ⟨occurrence, h.met hoccurrence, rfl⟩

variable {edit : WorkspaceTextEdit}

theorem mem_edited (h : snapshot.Planned ops subject newName edits)
    (hedit : edit ∈ edits) : edit.location ∈ snapshot.edited ops subject :=
  (h.locations edit.location).mp (List.mem_map_of_mem hedit)

theorem mem (h : snapshot.Planned ops subject newName edits)
    (hedit : edit ∈ edits) : edit.location ∈ subject.locations :=
  h.mem_locations_of_edited (h.mem_edited hedit)

/-- Two edits of one place are one edit. -/
theorem eq_of_location (h : snapshot.Planned ops subject newName edits)
    {left right : WorkspaceTextEdit}
    (hleft : left ∈ edits) (hright : right ∈ edits) (heq : left.location = right.location) :
    left = right := by
  have hleft' := h.newText left hleft
  have hright' := h.newText right hright
  cases left
  cases right
  dsimp only at heq hleft' hright'
  rw [heq, hleft', hright']

/-- Edits that do not overlap stand in descending order. -/
theorem descending (h : snapshot.Planned ops subject newName edits)
    (hapart : edits.Pairwise fun left right =>
      inOneText left.location right.location = true →
        Apart left.location.range right.location.range)
    (location : Location) (hlocation : location ∈ subject.locations) :
    Descending (editsOf edits location) := by
  unfold Descending editsOf
  rw [List.pairwise_map, List.pairwise_filter]
  refine (h.ordered.and hapart).imp_of_mem ?_
  intro left right hleft hright hboth honeLeft honeRight
  obtain ⟨hdocument, hfile, -⟩ := h.owners _ (h.mem hleft) _ hlocation honeLeft
  obtain ⟨hdocument', hfile', -⟩ := h.owners _ (h.mem hright) _ hlocation honeRight
  have hone : inOneText left.location right.location = true := by
    simp [inOneText, hdocument, hdocument', hfile, hfile']
  have hkey := hboth.1 hone
  rw [rangeKey, rangeKey, Prod.Lex.toLex_le_toLex] at hkey
  have hle := left.location.range.le
  have hle' := right.location.range.le
  rcases hboth.2 hone with hapart | hapart
  · -- the left range ends where the right one starts: both are empty
    rcases hkey with hlt | ⟨heq, hstop⟩
    · have hlt' : right.location.range.start < left.location.range.start :=
        OrderDual.toDual_lt_toDual.mp hlt
      omega
    · have heq' : left.location.range.start = right.location.range.start :=
        OrderDual.toDual_inj.mp heq
      have hstop' : right.location.range.stop ≤ left.location.range.stop :=
        OrderDual.toDual_le_toDual.mp hstop
      show right.location.range.stop ≤ left.location.range.start
      omega
  · exact hapart

/-- The edits of one text are told apart by their ranges. -/
theorem nodup_editsOf (h : snapshot.Planned ops subject newName edits) (location : Location)
    (hlocation : location ∈ subject.locations) :
    ((editsOf edits location).map TextEdit.range).Nodup := by
  have howners : ∀ other ∈ edits.filter fun other => inOneText other.location location,
      other ∈ edits ∧ other.location.document = location.document ∧
        other.location.file = location.file ∧ other.location.path = location.path := by
    intro other hother
    obtain ⟨hother, hone⟩ := List.mem_filter.mp hother
    exact ⟨hother, h.owners _ (h.mem hother) _ hlocation hone⟩
  unfold editsOf
  rw [List.map_map]
  refine (h.nodup.filter _).map_on ?_
  intro left hleft right hright hrange
  obtain ⟨hleft, hdocument, hfile, hpath⟩ := howners left hleft
  obtain ⟨hright, hdocument', hfile', hpath'⟩ := howners right hright
  refine h.eq_of_location hleft hright ?_
  rw [Location.mk.injEq]
  exact ⟨hdocument.trans hdocument'.symm, hfile.trans hfile'.symm, hpath.trans hpath'.symm, hrange⟩

/-- In each text the plan overwrites the places of the subject. -/
theorem overwrites (h : snapshot.Planned ops subject newName edits)
    (hapart : edits.Pairwise fun left right =>
      inOneText left.location right.location = true →
        Apart left.location.range right.location.range)
    (location : Location) (hlocation : location ∈ subject.locations) :
    Overwrites (editsOf edits location) (snapshot.editedRanges ops subject location) newName := by
  refine ⟨?_, ?_, h.nodup_editsOf location hlocation, h.descending hapart location hlocation⟩
  · intro edit hedit
    obtain ⟨other, hother, rfl⟩ := List.mem_map.mp hedit
    exact h.newText other (List.mem_filter.mp hother).1
  · intro range
    unfold editsOf
    rw [List.map_map, List.mem_map]
    constructor
    · rintro ⟨edit, hedit, rfl⟩
      obtain ⟨hedit, hone⟩ := List.mem_filter.mp hedit
      exact ⟨edit.location, h.mem_edited hedit, hone, rfl⟩
    · rintro ⟨_, hplace, hone, rfl⟩
      obtain ⟨edit, hedit, rfl⟩ := List.mem_map.mp ((h.locations _).mpr hplace)
      exact ⟨edit, List.mem_filter.mpr ⟨hedit, hone⟩, rfl⟩

/-- What is edited has the new name behind the plan. -/
theorem spells_textAfter (h : snapshot.Planned ops subject newName edits)
    (hspelled : ∀ edit ∈ edits, Spells subject.name (snapshot.textAt edit.location))
    (hapart : edits.Pairwise fun left right =>
      inOneText left.location right.location = true →
        Apart left.location.range right.location.range) (hedit : edit ∈ edits) :
    Spells newName (snapshot.textAfter edits edit.location) := by
  obtain ⟨_, htext, -⟩ := hspelled edit hedit
  obtain ⟨source, hsource, -⟩ := Option.bind_eq_some_iff.mp htext
  have hoverwrites := h.overwrites hapart _ (h.mem hedit)
  have hvalid : InText source (editsOf edits edit.location) := by
    intro other hother
    obtain ⟨edit', hfilter, rfl⟩ := List.mem_map.mp hother
    obtain ⟨hmem, hone⟩ := List.mem_filter.mp hfilter
    obtain ⟨hdocument, hfile, -⟩ := h.owners _ (h.mem hmem) _ (h.mem hedit) hone
    obtain ⟨_, htext', -⟩ := hspelled edit' hmem
    rw [textAt, sourceText_congr hdocument hfile, hsource] at htext'
    exact Option.isSome_of_eq_some htext'
  have hmem : (⟨edit.location.range, edit.newText⟩ : TextEdit) ∈ editsOf edits edit.location :=
    List.mem_map.mpr ⟨edit, List.mem_filter.mpr ⟨hedit, by simp [inOneText]⟩, rfl⟩
  refine ⟨newName, ?_, ?_⟩
  · rw [textAfter, hsource]
    exact (Format.landed_eq hoverwrites.descending hoverwrites.nodup hvalid hmem).trans
      (congrArg some (h.newText edit hedit))
  · rw [h.word]
    exact sameName_iff.mpr rfl

/-- A plan touches spellings only, exactly if its facts are written as they are named. -/
theorem respells_iff (h : snapshot.Planned ops subject newName edits) :
    snapshot.Respells ops subject newName edits ↔ snapshot.Authored ops subject newName := by
  have hedit : ∀ {location : Location}, location ∈ snapshot.edited ops subject →
      ∃ edit ∈ edits, edit.location = location := by
    intro location hlocation
    exact List.mem_map.mp ((h.locations location).mpr hlocation)
  have hreference : ∀ {occurrence : Occurrence}, occurrence ∈ subject.references →
      occurrence.location ∈ subject.locations := fun hoccurrence =>
    Set.mem_insert_of_mem _ ⟨_, hoccurrence, rfl⟩
  constructor
  · intro hrespells
    refine ⟨?_, ?_, ?_, ?_, ?_⟩
    · obtain ⟨edit, hmem, heq⟩ := hedit (Set.mem_insert subject.declaration _)
      exact heq ▸ hrespells.spelled edit hmem
    · intro occurrence hoccurrence hwritable
      obtain ⟨edit, hmem, heq⟩ := hedit (.inr ⟨hwritable, occurrence, hoccurrence, rfl⟩)
      obtain ⟨word, htext, hsame⟩ := hrespells.spelled edit hmem
      refine ⟨word, heq ▸ htext, sameName_iff.mpr ?_⟩
      exact (sameName_iff.mp hsame).trans (sameName_iff.mp (h.names occurrence hoccurrence)).symm
    · intro left hleft right hright hone hne
      obtain ⟨edit, hmem, rfl⟩ := hedit hleft
      obtain ⟨edit', hmem', rfl⟩ := hedit hright
      have hsymmetric : Std.Symm fun left right : WorkspaceTextEdit =>
          inOneText left.location right.location = true →
            Apart left.location.range right.location.range :=
        ⟨fun _ _ hrel hone => (hrel (inOneText_comm hone)).symm⟩
      exact hrespells.apart.forall hmem hmem' (fun heq => hne (heq ▸ rfl)) hone
    · intro left hleft right hright
      obtain ⟨edit, hmem, rfl⟩ := hedit hleft
      obtain ⟨edit', hmem', rfl⟩ := hedit hright
      exact hrespells.oneDocument edit hmem edit' hmem'
    · intro occurrence hoccurrence _ plan hplan
      rw [hplan.unique (h.overwrites hrespells.apart _ (hreference hoccurrence))]
      exact hrespells.renamed _ (hreference hoccurrence)
  · intro hauthored
    have hspelled : ∀ edit ∈ edits, Spells subject.name (snapshot.textAt edit.location) := by
      intro edit hmem
      rcases h.mem_edited hmem with heq | ⟨hwritable, occurrence, hoccurrence, heq⟩
      · exact heq ▸ hauthored.declared
      · obtain ⟨word, htext, hsame⟩ := hauthored.own occurrence hoccurrence (heq ▸ hwritable)
        refine ⟨word, heq ▸ htext, sameName_iff.mpr ?_⟩
        exact (sameName_iff.mp hsame).trans (sameName_iff.mp (h.names occurrence hoccurrence))
    have hapart : edits.Pairwise fun left right =>
        inOneText left.location right.location = true →
          Apart left.location.range right.location.range := by
      refine h.nodup.pairwise_of_forall_ne ?_
      intro left hleft right hright hne hone
      exact hauthored.apart _ (h.mem_edited hleft) _ (h.mem_edited hright) hone
        fun heq => hne (h.eq_of_location hleft hright heq)
    refine ⟨hspelled, hapart, ?_, ?_⟩
    · intro left hleft right hright
      exact hauthored.oneDocument _ (h.mem_edited hleft) _ (h.mem_edited hright)
    · intro location hlocation
      by_cases hplace : location ∈ snapshot.edited ops subject
      · obtain ⟨edit, hmem, rfl⟩ := hedit hplace
        exact h.spells_textAfter hspelled hapart hmem
      · rcases hlocation with rfl | ⟨occurrence, hoccurrence, rfl⟩
        · exact absurd (Set.mem_insert _ _) hplace
        · exact hauthored.others occurrence hoccurrence hplace _
            (h.overwrites hapart _ (hreference hoccurrence))

end Planned

end AnalysisSnapshot

theorem mem_encode {name : Str} {c : Char} (hc : c ∈ name) {byte : UInt8}
    (hbyte : byte ∈ String.utf8EncodeChar c) : byte ∈ Utf8.encode name :=
  List.mem_flatMap.mpr ⟨c, hc, hbyte⟩

/-- A valid name is not quoted. -/
theorem unquote_of_validRenameName {name : Str} (h : validRenameName name = true) :
    unquote name = name := by
  rw [validRenameName, Bool.and_eq_true, List.all_eq_true] at h
  cases name with
  | nil => rfl
  | cons c rest =>
    by_cases hc : c = '"'
    · subst hc
      have hword := h.2 0x22 (mem_encode List.mem_cons_self (by decide))
      exact absurd hword (by decide)
    · unfold unquote
      split
      · rename_i heq
        cases heq
        exact absurd rfl hc
      · rfl

/-- Edits of one text, told apart by their locations. -/
theorem destutter_location {key : List WorkspaceTextEdit → List WorkspaceTextEdit}
    {locations : List Location} {newName : Str} (hkey : ∀ xs, (key xs).Perm xs)
    {R : WorkspaceTextEdit → WorkspaceTextEdit → Prop}
    [DecidableRel R] (hR : ∀ left right : WorkspaceTextEdit, left.newText = right.newText →
      (R left right ↔ left.location ≠ right.location)) :
    (key (locations.map fun location => ⟨location, newName⟩)).destutter R =
      (key (locations.map fun location => ⟨location, newName⟩)).destutter (· ≠ ·) := by
  have hnewText : ∀ edit ∈ key (locations.map fun location => ⟨location, newName⟩),
    edit.newText = newName := by
    intro edit hedit
    obtain ⟨location, -, rfl⟩ := List.mem_map.mp ((hkey _).mem_iff.mp hedit)
    rfl
  refine destutter_congr fun left hleft right hright => ?_
  have htext := (hnewText left hleft).trans (hnewText right hright).symm
  rw [hR left right htext]
  cases left
  cases right
  dsimp only at htext
  simp [htext]

theorem parameterEdits_eq (owner : Owner) (uses : List ParameterReference) (newName : Str) :
    parameterEdits owner uses newName = (sortByKey rangeKey
      ((uses.map fun reference => owner.location reference.nameRange).map fun location =>
        ⟨location, newName⟩)).destutter (· ≠ ·) := by
  unfold parameterEdits
  rw [← destutter_location (perm_sortByKey rangeKey)
    (R := fun kept next => kept.location ≠ next.location)
    fun _ _ _ => Iff.rfl, List.map_map]
  rfl

theorem symbolEdits_eq (locations : List Location) (newName : Str) :
    symbolEdits locations newName =
      (sortByKey editKey (locations.map fun location => ⟨location, newName⟩)).destutter
        (· ≠ ·) := by
  unfold symbolEdits
  exact destutter_location (perm_sortByKey editKey) fun left right htext => by simp [htext]

namespace AnalysisSnapshot

omit [Std.TransOrd Path]

variable {ops snapshot}

/-- Edits that are sorted by a key, where the key tells them apart and goes down within a text. -/
theorem planned_of_sorted {κ : Type*} [LinearOrder κ] {key : WorkspaceTextEdit → κ}
    {locations : List Location}
    {subject : Subject} {newName : Str} (hword : unquote newName = newName)
    (hlocations : ∀ location, location ∈ locations ↔ location ∈ snapshot.edited ops subject)
    (hmet : subject.met ⊆ subject.references)
    (hnames : ∀ occurrence ∈ subject.met, sameName occurrence.name subject.name = true)
    (howners : ∀ left ∈ subject.locations, ∀ right ∈ subject.locations,
      inOneText left right = true →
      left.document = right.document ∧ left.file = right.file ∧ left.path = right.path)
    (hkey : ∀ left ∈ locations, ∀ right ∈ locations, key ⟨left, newName⟩ = key ⟨right, newName⟩ →
      left = right)
    (hrange : ∀ left ∈ locations, ∀ right ∈ locations, inOneText left right = true →
      key ⟨left, newName⟩ ≤ key ⟨right, newName⟩ → rangeKey ⟨left, newName⟩ ≤
        rangeKey ⟨right, newName⟩) :
    snapshot.Planned ops subject newName
      ((sortByKey key (locations.map fun location => ⟨location, newName⟩)).destutter (· ≠ ·)) := by
  have hmem : ∀ edit,
    edit ∈ (sortByKey key (locations.map fun location =>
    (⟨location, newName⟩ : WorkspaceTextEdit))).destutter
      (· ≠ ·) ↔ ∃ location ∈ locations, ⟨location, newName⟩ = edit := by
    intro edit
    rw [mem_destutter_ne, (perm_sortByKey _ _).mem_iff, List.mem_map]
  refine ⟨hword, ?_, ?_, hmet, hnames, howners, ?_, ?_⟩
  · intro edit hedit
    obtain ⟨location, -, rfl⟩ := (hmem edit).mp hedit
    rfl
  · intro location
    rw [← hlocations location, List.mem_map]
    constructor
    · rintro ⟨edit, hedit, rfl⟩
      obtain ⟨location, hlocation, rfl⟩ := (hmem edit).mp hedit
      exact hlocation
    · intro hlocation
      exact ⟨⟨location, newName⟩, (hmem _).mpr ⟨location, hlocation, rfl⟩, rfl⟩
  · refine (pairwise_destutter_sortByKey (· ≠ ·)).imp_of_mem ?_
    intro left right hleft hright hle hone
    obtain ⟨location, hlocation, rfl⟩ := (hmem left).mp hleft
    obtain ⟨location', hlocation', rfl⟩ := (hmem right).mp hright
    exact hrange location hlocation location' hlocation' hone hle
  · refine nodup_destutter_sortByKey ?_
    intro left hleft right hright heq
    obtain ⟨location, hlocation, rfl⟩ := List.mem_map.mp hleft
    obtain ⟨location', hlocation', rfl⟩ := List.mem_map.mp hright
    rw [hkey location hlocation location' hlocation' heq]

end AnalysisSnapshot

theorem rangeKey_inj {left right : WorkspaceTextEdit} (h : rangeKey left = rangeKey right) :
    left.location.range = right.location.range := by
  obtain ⟨hstart, hstop⟩ := Prod.mk.inj (toLex_inj.mp h)
  obtain ⟨⟨_, _, _, ⟨_, _, _⟩⟩, _⟩ := left
  obtain ⟨⟨_, _, _, ⟨_, _, _⟩⟩, _⟩ := right
  cases OrderDual.toDual_inj.mp hstart
  cases OrderDual.toDual_inj.mp hstop
  rfl

/-! ## The plan of a parameter -/

namespace AnalysisSnapshot

omit [Std.TransOrd Path]

variable {ops snapshot}

variable {newName : Str}

/-- The plan of a parameter that the code lowers. -/
theorem planned_renameParameter {owner : Owner} {hir : HirFile} {definition : ParameterDefinition}
    {edits : List WorkspaceTextEdit} (hlowered : hir.Lowered) (hword : unquote newName = newName)
    (hdefinition : definition ∈ hir.parameterDefinitionsForOwner definition.ownerRange)
    (h : snapshot.renameParameter ops owner hir definition newName = .ok edits) :
    snapshot.Planned ops (parameterSubject owner hir definition) newName edits := by
  unfold renameParameter at h
  split_ifs at h with hname hreadOnly hconflict
  obtain rfl := Except.ok.inj h
  rw [Bool.not_eq_false] at hreadOnly
  have howner : ∀ location ∈ (parameterSubject owner hir definition).locations,
      ∃ range, location = owner.location range := by
    rintro _ (rfl | ⟨_, ⟨reference, -, -, -, rfl⟩, rfl⟩)
    · exact ⟨definition.nameRange, rfl⟩
    · exact ⟨reference.nameRange, rfl⟩
  -- the declaration is itself a use
  have hedited : ∀ location, location ∈ (usesOf hir definition).map (fun reference =>
      owner.location reference.nameRange) ↔
        location ∈ snapshot.edited ops (parameterSubject owner hir definition) := by
    intro location
    rw [List.mem_map]
    constructor
    · rintro ⟨reference, hreference, rfl⟩
      obtain ⟨hreference, hname⟩ := List.mem_filter.mp hreference
      obtain ⟨hmem, howner', hstart, hstop⟩ := hlowered.mem_iff.mp hreference
      exact .inr ⟨(writableLocation_congr rfl rfl).trans hreadOnly, _,
        ⟨reference, hmem, howner', hname, hstart, hstop, rfl⟩, rfl⟩
    · rintro (rfl | ⟨-, _, ⟨reference, hmem, howner', hname, hstart, hstop, rfl⟩, rfl⟩)
      · exact ⟨_, List.mem_filter.mpr ⟨hlowered.declared hdefinition, sameName_iff.mpr rfl⟩, rfl⟩
      · exact ⟨reference, List.mem_filter.mpr
          ⟨hlowered.mem_iff.mpr ⟨hmem, howner', hstart, hstop⟩, hname⟩, rfl⟩
  rw [parameterEdits_eq]
  refine planned_of_sorted hword hedited ?_ ?_ ?_ ?_ fun _ _ _ _ _ hle => hle
  · rintro _ ⟨reference, hmem, howner', hname, -, -, rfl⟩
    exact ⟨reference, hmem, howner', hname, rfl⟩
  · rintro _ ⟨reference, -, -, hname, -, -, rfl⟩
    exact hname
  · intro left hleft right hright _
    obtain ⟨range, rfl⟩ := howner left hleft
    obtain ⟨range', rfl⟩ := howner right hright
    exact ⟨rfl, rfl, rfl⟩
  · intro left hleft right hright hkey
    obtain ⟨reference, -, rfl⟩ := List.mem_map.mp hleft
    obtain ⟨reference', -, rfl⟩ := List.mem_map.mp hright
    exact congrArg owner.location (rangeKey_inj hkey)

variable {input : ParsedInput}

/-- The parameter at a position is one of its definition. -/
theorem mem_of_parameterAt {position : Nat} {hir : HirFile}
    {definition : ParameterDefinition} (h : parameterAt input position = some (hir, definition)) :
    input.hir = some hir ∧ definition ∈ hir.parameterDefinitionsForOwner definition.ownerRange := by
  obtain ⟨other, hother, h⟩ := Option.bind_eq_some_iff.mp h
  obtain ⟨found, hfound, heq⟩ := Option.map_eq_some_iff.mp h
  obtain ⟨rfl, rfl⟩ := Prod.mk.inj heq
  obtain ⟨reference, -, hfound⟩ := Option.bind_eq_some_iff.mp hfound
  obtain ⟨definition, hdefinition, rfl⟩ := Option.map_eq_some_iff.mp hfound
  have hmem := List.mem_of_find?_eq_some hdefinition
  have howner := (List.mem_filter.mp hmem).2
  rw [beq_iff_eq] at howner
  exact ⟨hother, howner.symm ▸ hmem⟩

/-! ## The plan of a symbol -/

/-- A place in an open document or in a file. -/
def Owned (ops : PathOperations Path) (snapshot : AnalysisSnapshot Path)
    (location : Location) : Prop :=
  (∃ document input range, snapshot.documentInput document = some input ∧
    location = (snapshot.documentOwner ops document input).location range) ∨
  ∃ fileId range, location = (snapshot.fileOwner fileId).location range

/-- Places in one text have one owner. -/
theorem owner_of_inOneText {left right : Location} (hleft : snapshot.Owned ops left)
    (hright : snapshot.Owned ops right) (hone : inOneText left right = true) :
    left.document = right.document ∧ left.file = right.file ∧ left.path = right.path := by
  obtain ⟨hdocument, hfile⟩ := inOneText_iff.mp hone
  rcases hleft with ⟨document, input, range, hinput, rfl⟩ | ⟨fileId, range, rfl⟩
  · rcases hright with ⟨document', input', range', hinput', rfl⟩ | ⟨fileId', range', rfl⟩
    · obtain rfl : document = document' := Option.some.inj hdocument
      obtain rfl : input = input' := Option.some.inj (hinput.symm.trans hinput')
      exact ⟨rfl, rfl, rfl⟩
    · cases hdocument
  · rcases hright with ⟨document', input', range', hinput', rfl⟩ | ⟨fileId', range', rfl⟩
    · cases hdocument
    · obtain rfl : fileId = fileId' := Option.some.inj (hfile rfl)
      exact ⟨rfl, rfl, rfl⟩

theorem toDigits_injective {m n : Nat} (h : Nat.toDigits 10 m = Nat.toDigits 10 n) : m = n := by
  rw [← Nat.ofDigitChars_ten_toDigits (n := m), h, Nat.ofDigitChars_ten_toDigits]

/-- The key of the target tells texts apart. -/
theorem inOneText_of_key {left right : Location} (hleft : snapshot.Owned ops left)
    (hright : snapshot.Owned ops right)
    (hkey : editTargetKey left = editTargetKey right) : inOneText left right = true := by
  rw [inOneText_iff]
  rcases hleft with ⟨document, input, range, -, rfl⟩ | ⟨fileId, range, rfl⟩
  · rcases hright with ⟨document', input', range', -, rfl⟩ | ⟨fileId', range', rfl⟩
    · obtain ⟨-, rfl⟩ := Prod.mk.inj (toLex_inj.mp hkey)
      exact ⟨rfl, fun hnone => absurd hnone (Option.some_ne_none document)⟩
    · exact absurd (Prod.mk.inj (toLex_inj.mp hkey)).1 (by decide)
  · rcases hright with ⟨document', input', range', -, rfl⟩ | ⟨fileId', range', rfl⟩
    · exact absurd (Prod.mk.inj (toLex_inj.mp hkey)).1 (by decide)
    · obtain rfl := toDigits_injective (Prod.mk.inj (toLex_inj.mp hkey)).2
      exact ⟨rfl, fun _ => rfl⟩

theorem owned_of_documentSemantics {id : Str} {data : SemanticFile}
    (hdata : snapshot.documentSemantics ops id = some data) :
    (∀ reference ∈ data.references, snapshot.Owned ops reference.location) ∧
      ∀ definition ∈ data.definitions, snapshot.Owned ops definition.location := by
  obtain ⟨input, hinput, hof⟩ := of_documentSemantics ops snapshot hdata
  constructor
  · intro reference hreference
    refine .inl ⟨id, input, reference.range, hinput, ?_⟩
    rw [ReferenceInternal.location, hof.references reference hreference]
  · intro definition hdefinition
    refine .inl ⟨id, input, definition.range, hinput, ?_⟩
    rw [DefinitionInfo.location, hof.definitions definition hdefinition]

variable {reference : ReferenceInternal}

/-- A reference has an owner. -/
theorem owned_of_stands {searched : Nat → Prop} {kind name : Str} {i : ℕ ×ₗ ℕ ×ₗ ℕ}
    (h : snapshot.Stands ops searched kind name i reference) :
    snapshot.Owned ops reference.location := by
  cases h with
  | @template rank k fileId input reference _ _ _ _ hreference _ =>
    have howner := (SemanticFile.Of.empty.collectTemplateSemantics input).references _
      (List.mem_of_getElem? hreference)
    refine .inr ⟨fileId, reference.range, ?_⟩
    rw [ReferenceInternal.location, howner]
  | document _ hdata hreference _ =>
    exact (owned_of_documentSemantics hdata).1 _ (List.mem_of_getElem? hreference)
  | @index _ _ entry reference => exact .inr ⟨entry.2.fileId, reference.range, rfl⟩
  | @cache _ _ _ row => exact .inr ⟨row.1, row.2.range, rfl⟩

/-- What the workspace of a document defines is defined in it or in another open document. -/
theorem owned_of_documentSemanticWorkspace {document : Str}
    (hinput : snapshot.documentInput document = some input) {definition : DefinitionInfo}
    (h : definition ∈ (snapshot.documentSemanticWorkspace ops document input).definitions) :
    snapshot.Owned ops definition.location := by
  revert definition
  -- what is collected so far is owned, at every document
  refine List.foldlRecOn (motive := fun all : SemanticFile =>
    ∀ {definition}, definition ∈ all.definitions → snapshot.Owned ops definition.location) _ _ ?_ ?_
  · intro definition hdefinition
    refine .inl ⟨document, input, definition.range, hinput, ?_⟩
    rw [DefinitionInfo.location, (of_semanticData _ input).definitions definition hdefinition]
  · intro all hall entry _ definition hdefinition
    cases hdata : snapshot.documentSemantics ops entry.1 with
    | none =>
      rw [hdata] at hdefinition
      exact hall hdefinition
    | some semantic =>
      rw [hdata] at hdefinition
      rcases List.mem_append.mp hdefinition with hdefinition | hdefinition
      · exact hall hdefinition
      · exact (owned_of_documentSemantics hdata).2 _ hdefinition

theorem owned_of_symbolCandidates [Std.TransOrd Path] {document : Str}
    (hinput : snapshot.documentInput document = some input) {kind name : Str}
    {candidate : ResolutionDefinition}
    (h : candidate ∈ snapshot.symbolCandidates ops
      (snapshot.documentSemanticWorkspace ops document input) kind name) :
    snapshot.Owned ops candidate.location := by
  rcases List.mem_append.mp (orderCandidates_subset _ (preferLanguageOf_subset kind _ h)) with h | h
  · obtain ⟨definition, hdefinition, rfl⟩ := List.mem_map.mp h
    exact owned_of_documentSemanticWorkspace hinput (List.mem_filter.mp hdefinition).1
  · obtain ⟨definition, -, rfl⟩ := List.mem_map.mp h
    exact .inr ⟨definition.fileId, definition.range, rfl⟩

variable {location : Location}

theorem owned_range (h : snapshot.Owned ops location) (range : TextRange) :
    snapshot.Owned ops { location with range := range } := by
  rcases h with ⟨document, input, _, hinput, rfl⟩ | ⟨fileId, _, rfl⟩
  · exact .inl ⟨document, input, range, hinput, rfl⟩
  · exact .inr ⟨fileId, range, rfl⟩

variable {target : RenameTarget}

/-- The target of a rename is a candidate. -/
theorem owned_of_renameTarget [Std.TransOrd Path] {document : Str} {position : Nat}
    (hinput : snapshot.documentInput document = some input)
    (h : snapshot.renameTarget ops document input position = .ok target) :
    snapshot.Owned ops target.definition.location := by
  unfold renameTarget at h
  dsimp only at h
  split at h
  · cases h
  · rename_i kind name hsymbol
    split at h
    · cases h
    · rename_i definition hcandidates
      split_ifs at h with hwritable
      obtain rfl := Except.ok.inj h
      have hmem : definition ∈ retainHighestAndOrder (snapshot.symbolCandidates ops
          (snapshot.documentSemanticWorkspace ops document input) kind name) := by
        rw [hcandidates]
        exact List.mem_singleton_self definition
      exact owned_of_symbolCandidates hinput
        (List.mem_filter.mp ((perm_sortByKey _ _).mem_iff.mp hmem)).1
    · cases h

/-- Where a reference is edited. -/
theorem renameReference_eq_some [Std.TransOrd Path] {all : SemanticFile} :
    snapshot.renameReference ops all target reference = some location ↔
      isOf target.kind target.name reference.kind reference.name = true ∧
        snapshot.hidden ops reference = false ∧
        (∃ candidate, snapshot.resolveSymbol ops all target.kind target.name = .unique candidate ∧
          candidate.location = target.definition.location) ∧
        snapshot.writableLocation ops reference.location = true ∧
          reference.location = location := by
  unfold renameReference
  by_cases hof : isOf target.kind target.name reference.kind reference.name = true
  · have hname : sameName reference.name target.name = true := by
      rw [isOf, Bool.and_eq_true] at hof
      exact hof.2
    rw [if_pos hof, resolveSymbol_congr ops snapshot all target.kind hname]
    cases hhidden : snapshot.hidden ops reference with
    | true => simp
    | false =>
      cases snapshot.resolveSymbol ops all target.kind target.name with
      | missing => simp
      | unique candidate =>
        by_cases hboth : candidate.location = target.definition.location ∧
            snapshot.writableLocation ops reference.location = true
        · simp [hof, hboth.1, hboth.2]
        · simp only [Bool.false_eq_true, if_false, if_neg hboth, Resolution.unique.injEq]
          refine iff_of_false (by simp) ?_
          rintro ⟨-, -, ⟨_, rfl, hlocation⟩, hwritable, -⟩
          exact hboth ⟨hlocation, hwritable⟩
  · rw [if_neg hof]
    exact iff_of_false (by simp) fun h => hof h.1

theorem hidden_iff :
    snapshot.hidden ops reference = true ↔ snapshot.Hidden ops reference.location := by
  unfold hidden Hidden ReferenceInternal.location Owner.location
  cases reference.owner.file <;> simp

/-- The references that a rename edits are those that are met and can be written. -/
theorem exists_found_iff [Std.TransOrd Path] :
    (∃ reference ∈ snapshot.found (snapshot.renameWorkspace ops target newName)
        target.kind target.name,
        snapshot.renameReference ops (snapshot.renameWorkspace ops target newName)
          target reference =
          some location) ↔
      snapshot.writableLocation ops location = true ∧
        ∃ occurrence ∈ (snapshot.symbolSubject ops target newName).met,
          occurrence.location = location := by
  have hlaid : LaidOut (snapshot.Stands ops (snapshot.Searched [target.name, newName]) target.kind
      target.name) _ := laidOut_found [target.name, newName] target.kind target.name
  constructor
  · rintro ⟨reference, hfound, heq⟩
    obtain ⟨-, hhidden, hresolves, hwritable, rfl⟩ := renameReference_eq_some.mp heq
    refine ⟨hwritable, _, ⟨hresolves, reference, ⟨hlaid.mem_iff.mp hfound, ?_⟩, rfl⟩, rfl⟩
    rwa [← hidden_iff, Bool.not_eq_true]
  · rintro ⟨hwritable, _, ⟨hresolves, reference, ⟨⟨i, hstands⟩, hlive⟩, rfl⟩, rfl⟩
    refine ⟨reference, hlaid.mem_iff.mpr ⟨i, hstands⟩, renameReference_eq_some.mpr ?_⟩
    rw [← hidden_iff, Bool.not_eq_true] at hlive
    exact ⟨hstands.isOf, hlive, hresolves, hwritable, rfl⟩

/-- The edited places are the declaration and the writable references that are met. -/
theorem mem_renameLocations [Std.TransOrd Path] :
    location ∈ snapshot.renameLocations ops target newName ↔
      location ∈ snapshot.edited ops (snapshot.symbolSubject ops target newName) := by
  unfold renameLocations
  rw [List.mem_cons]
  refine or_congr_right (Iff.trans ?_ exists_found_iff)
  constructor
  · intro h
    rcases List.mem_append.mp h with h | h
    · rcases List.mem_append.mp h with h | h
      · obtain ⟨reference, hreference, heq⟩ := List.mem_filterMap.mp h
        have hof := (renameReference_eq_some.mp heq).1
        exact ⟨reference, List.mem_append_left _ (List.mem_append_left _
          (List.mem_filter.mpr ⟨hreference, hof⟩)), heq⟩
      · obtain ⟨reference, hreference, heq⟩ := List.mem_filterMap.mp h
        exact ⟨reference, List.mem_append_left _ (List.mem_append_right _ hreference), heq⟩
    · obtain ⟨reference, hreference, heq⟩ := List.mem_filterMap.mp h
      have hof := (renameReference_eq_some.mp heq).1
      exact ⟨reference, List.mem_append_right _ (List.mem_filter.mpr ⟨hreference, hof⟩), heq⟩
  · rintro ⟨reference, hreference, heq⟩
    rcases List.mem_append.mp hreference with hreference | hreference
    · rcases List.mem_append.mp hreference with hreference | hreference
      · exact List.mem_append_left _ (List.mem_append_left _
          (List.mem_filterMap.mpr ⟨reference, (List.mem_filter.mp hreference).1, heq⟩))
      · exact List.mem_append_left _ (List.mem_append_right _
          (List.mem_filterMap.mpr ⟨reference, hreference, heq⟩))
    · exact List.mem_append_right _
        (List.mem_filterMap.mpr ⟨reference, (List.mem_filter.mp hreference).1, heq⟩)

/-- The plan of a symbol. -/
theorem planned_renameSymbol [Std.TransOrd Path] {document : Str} {position : Nat}
    {edits : List WorkspaceTextEdit} (hword : unquote newName = newName)
    (hinput : snapshot.documentInput document = some input)
    (htarget : snapshot.renameTarget ops document input position = .ok target)
    (h : snapshot.renameSymbol ops target newName = .ok edits) :
    snapshot.Planned ops (snapshot.symbolSubject ops target newName) newName edits := by
  unfold renameSymbol at h
  dsimp only at h
  split_ifs at h
  obtain rfl := Except.ok.inj h
  have howned := owned_of_renameTarget hinput htarget
  have hall : ∀ location ∈ (snapshot.symbolSubject ops target newName).locations,
      snapshot.Owned ops location := by
    rintro _ (rfl | ⟨_, ⟨-, reference, ⟨⟨i, hstands⟩, -⟩, rfl⟩, rfl⟩)
    · exact owned_range howned _
    · exact owned_of_stands hstands
  have hmet : (snapshot.symbolSubject ops target newName).met ⊆
      (snapshot.symbolSubject ops target newName).references := by
    rintro _ ⟨hresolves, reference, ⟨⟨i, hstands⟩, hlive⟩, rfl⟩
    exact ⟨hresolves, reference, ⟨⟨i, hstands.mono fun _ _ => trivial⟩, hlive⟩, rfl⟩
  have hsubject : ∀ location ∈ snapshot.renameLocations ops target newName,
      snapshot.Owned ops location := by
    intro location hlocation
    rcases mem_renameLocations.mp hlocation with rfl | ⟨-, occurrence, hoccurrence, rfl⟩
    · exact owned_range howned _
    · exact hall _ (.inr ⟨occurrence, hmet hoccurrence, rfl⟩)
  rw [symbolEdits_eq]
  refine planned_of_sorted hword (fun location => mem_renameLocations) hmet ?_ ?_ ?_ ?_
  · rintro _ ⟨-, reference, ⟨⟨i, hstands⟩, -⟩, rfl⟩
    have hof := hstands.isOf
    rw [isOf, Bool.and_eq_true] at hof
    exact hof.2
  · intro left hleft right hright hone
    exact owner_of_inOneText (hall left hleft) (hall right hright) hone
  · intro left hleft right hright hkey
    obtain ⟨htext, hrange⟩ := Prod.mk.inj (toLex_inj.mp hkey)
    have hone := inOneText_of_key (hsubject left hleft) (hsubject right hright) htext
    obtain ⟨hdocument, hfile, hpath⟩ := owner_of_inOneText (hsubject left hleft)
      (hsubject right hright) hone
    rw [Location.mk.injEq]
    exact ⟨hdocument, hfile, hpath, rangeKey_inj hrange⟩
  · intro left hleft right hright hone hle
    obtain ⟨hdocument, hfile, hpath⟩ := owner_of_inOneText (hsubject left hleft)
      (hsubject right hright) hone
    have htext : editTargetKey left = editTargetKey right := by
      unfold editTargetKey
      rw [hdocument, hfile, hpath]
    rcases Prod.Lex.toLex_le_toLex.mp hle with hlt | ⟨-, hle⟩
    · exact absurd htext hlt.ne
    · exact hle

end AnalysisSnapshot

/-- A rename touches spellings of the renamed symbol only, and all of them, exactly if the facts it
is about are written as they are named, stand apart, have one document each and can be written. -/
theorem rename_respells_iff {document : Str} {position : Nat} {newName : Str}
    {edits : List WorkspaceTextEdit}
    (hlowered : ∀ input hir, snapshot.documentInput document = some input →
      input.hir = some hir → hir.Lowered)
    (h : snapshot.rename ops document position newName = .ok edits) :
    ∃ subject, snapshot.subjectAt ops document position newName = some subject ∧
      (snapshot.Respells ops subject newName edits ↔ snapshot.Authored ops subject newName) := by
  unfold AnalysisSnapshot.rename at h
  split_ifs at h with hname
  rw [Bool.not_eq_false] at hname
  have hword := unquote_of_validRenameName hname
  unfold AnalysisSnapshot.subjectAt
  cases hinput : snapshot.documentInput document with
  | none =>
    rw [hinput] at h
    cases h
  | some input =>
    rw [hinput] at h
    rw [Option.bind_some]
    dsimp only at h
    cases hparameter : AnalysisSnapshot.parameterAt input position with
    | some found =>
      obtain ⟨hir, definition⟩ := found
      rw [hparameter] at h
      obtain ⟨hhir, hdefinition⟩ := AnalysisSnapshot.mem_of_parameterAt hparameter
      exact ⟨_, rfl, (AnalysisSnapshot.planned_renameParameter (hlowered input hir hinput hhir)
        hword hdefinition h).respells_iff⟩
    | none =>
      rw [hparameter] at h
      dsimp only at h
      cases htarget : snapshot.renameTarget ops document input position with
      | error error =>
        rw [htarget] at h
        cases h
      | ok target =>
        rw [htarget] at h
        exact ⟨_, rfl, (AnalysisSnapshot.planned_renameSymbol hword hinput htarget h).respells_iff⟩

end Rename

/-- Two paths, each with a logical path of its own. -/
def separate : PathOperations Nat where
  normalize path := path
  startsWith _ _ := true
  osLen _ := 0
  stripPrefix path _ := some (if path = 10 then "missions/a.txt".toList else
    "localisation/b_l_english.yml".toList)

/-- A localisation key and a script in which it is derived from a shorter name. -/
def titled (source : Str) (references : List Reference) : AnalysisSnapshot Nat where
  roots := [⟨0, 0, 0⟩]
  sourceFiles := ∅
  categories := []
  documents := (Std.ExtTreeMap.empty.insert "file:///a".toList ⟨.overlay, some 10⟩).insert
    "file:///b".toList ⟨.overlay, some 11⟩
  index := .fromShards []
  referenceSources := []
  fileStates := ∅
  documentInput id :=
    if id = "file:///a".toList then
      some
        { path := some "missions/a.txt".toList, source := source, format := .script,
          hir := some { references } }
    else
      some
        { path := some "localisation/b_l_english.yml".toList
          source := "heal_title:0 \"Heal\"".toList
          format := .localisation
          hir := some
            { definitions := [⟨"localisation".toList, "heal_title".toList, .sized 0 19,
                .sized 0 10⟩] } }
  fileInput _ := none
  previewLanguage := "english".toList

/-- A binding derives the key from the name of a mission. -/
def derived : AnalysisSnapshot Nat :=
  titled "heal = { }".toList (addBindings [⟨some "$_title".toList, none, true⟩]
    "heal".toList (.sized 0 4))

/-- The rename of the key overwrites the name of the mission. -/
theorem rename_respells_derived :
    ∃ edits subject, derived.rename separate "file:///b".toList 3 "cure".toList = .ok edits ∧
      derived.subjectAt separate "file:///b".toList 3 "cure".toList = some subject ∧
        ¬ derived.Respells separate subject "cure".toList edits := by
  have hname : (derived.subjectAt separate "file:///b".toList 3 "cure".toList).map Subject.name =
      some "heal_title".toList := by decide +kernel
  obtain ⟨subject, hsubject, hname⟩ := Option.map_eq_some_iff.mp hname
  have hedits : derived.rename separate "file:///b".toList 3 "cure".toList = .ok
      [⟨⟨some "file:///a".toList, none, some "missions/a.txt".toList, ⟨0, 4, by decide⟩⟩,
        "cure".toList⟩, ⟨⟨some "file:///b".toList, none, some "localisation/b_l_english.yml".toList,
        ⟨0, 10, by decide⟩⟩,
          "cure".toList⟩] := by decide +kernel
  refine ⟨_, subject, hedits, hsubject, fun h => ?_⟩
  obtain ⟨word, htext, hsame⟩ := h.spelled _ List.mem_cons_self
  have hword : derived.textAt ⟨some "file:///a".toList, none, some "missions/a.txt".toList,
    ⟨0, 4, by decide⟩⟩ =
      some "heal".toList := by decide +kernel
  obtain rfl := Option.some.inj (hword.symm.trans htext)
  rw [hname] at hsame
  exact absurd hsame (by decide)

/-- The same key where a script has all of it. -/
def spelledOut : AnalysisSnapshot Nat :=
  titled "heal_title = { }".toList [⟨"localisation".toList, "heal_title".toList, .sized 0 10⟩]

/-- The rename touches spellings only, if the facts are as they are named. -/
theorem rename_respells_iff_spelledOut :
    ∃ subject, spelledOut.subjectAt separate "file:///b".toList 3 "cure".toList = some subject ∧
      (spelledOut.Respells separate subject "cure".toList
        [⟨⟨some "file:///a".toList, none, some "missions/a.txt".toList, ⟨0, 10, by decide⟩⟩,
          "cure".toList⟩,
          ⟨⟨some "file:///b".toList, none, some "localisation/b_l_english.yml".toList,
            ⟨0, 10, by decide⟩⟩,
            "cure".toList⟩] ↔ spelledOut.Authored separate subject "cure".toList) := by
  refine rename_respells_iff separate spelledOut ?_ (by decide +kernel)
  intro input hir hinput hhir
  obtain rfl := Option.some.inj hinput
  obtain rfl := Option.some.inj hhir
  exact ⟨[], rfl⟩

end ParadoxCode.Ide
