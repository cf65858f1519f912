import ParadoxCode.Ide.Resolution
import ParadoxCode.Lib.AsciiCase
import ParadoxCode.Lib.Dedup
import ParadoxCode.Lib.Places

/-!
# Find references

`navigation.rs`: the references of the symbol at a position, and of a symbol by its name. Both
searches run through the semantic facts, the index and the installed caches, sort the locations by
path and start and leave out repeated neighbours.
-/

namespace ParadoxCode.Ide

open Dedup
open Places (LaidOut)
open Engine.Store (FileIndexShard Reference)
open Format (eqIgnoreAsciiCase)
open StableSort (sortByKey perm_sortByKey)
open Workspace.SourceResolution (PathOperations Document numbered)

/-! ## The searches -/

/-- Path and start of a location. -/
def locationKey (location : Location) : Str ×ₗ ℕ :=
  toLex (location.path.getD [], location.range.start)

/-- Whether a reference has the kind and the name that are searched for. -/
def isOf (kind name foundKind foundName : Str) : Bool :=
  foundKind == kind && sameName foundName name

/-- What a position is on: a parameter of the definition around it, or a symbol. -/
inductive Target where
  | parameter (owner : Owner) (hir : HirFile) (definition : ParameterDefinition)
  | symbol (kind name : Str)

/-- The references of a parameter in its definition, but for the declaration. -/
def parameterReferences (hir : HirFile) (definition : ParameterDefinition) :
    List ParameterReference :=
  (hir.parameterReferencesForOwner definition.ownerRange).filter fun reference =>
    eqIgnoreAsciiCase reference.name definition.name && reference.nameRange != definition.nameRange

section Searches

variable {Path : Type} [Ord Path] [Std.TransOrd Path]
  (ops : PathOperations Path) (snapshot : AnalysisSnapshot Path)

namespace AnalysisSnapshot

/-- `consider_reference`. -/
def considerReference (all : SemanticFile) (kind name : Str) (target : ResolutionDefinition)
    (reference : ReferenceInternal) : Option Location :=
  if isOf kind name reference.kind reference.name = true then
    match snapshot.resolveSymbol ops all kind reference.name with
    | .unique candidate => if candidate.location = target.location then
        some reference.location else none
    | .missing => none
  else none

/-- The references of the index that have the kind and the name. -/
def indexedReferences (kind name : Str) : List ReferenceInternal :=
  (snapshot.index.referencesIter.filter fun entry => isOf kind name entry.2.kind entry.2.name).map
    fun entry => snapshot.indexedReference entry.1 entry.2

/-- The references of the installed caches. -/
def lazyReferences (kind name : Str) : List ReferenceInternal :=
  (snapshot.lazyReferencesFor kind name).map fun entry => snapshot.indexedReference entry.1 entry.2

/-- The part that both searches share: the locations of a symbol that is resolved. -/
def collectReferences (all : SemanticFile) (kind name : Str) (target : ResolutionDefinition)
    (includeDeclaration : Bool) : List Location :=
  let consider := snapshot.considerReference ops all kind name target
  let result := (if includeDeclaration = true then [definitionSelectionLocation target] else []) ++
    all.references.filterMap consider ++ (snapshot.indexedReferences kind name).filterMap
      consider ++
    (snapshot.lazyReferences kind name).filterMap consider
  (sortByKey locationKey result).destutter (· ≠ ·)

/-- `symbol_references`: the declaration and the references. -/
def symbolReferences (kind name : Str) (includeDeclaration : Bool) :
    Option (Location × List Location) :=
  let all := snapshot.allSemanticsForSymbol ops [name]
  match snapshot.resolveSymbol ops all kind name with
  | .missing => none
  | .unique target =>
    some (definitionSelectionLocation target, snapshot.collectReferences ops all kind name target
      includeDeclaration)

/-- What the cursor is on. -/
def targetAt (document : Str) (position : Nat) : Option Target :=
  (snapshot.documentInput document).bind fun input =>
    match input.hir.bind fun hir => (hir.localParameterTarget position).map fun found =>
      (hir, found.1) with
    | some (hir, definition) => some (.parameter (snapshot.documentOwner ops document input)
        hir definition)
    | none =>
      (symbolAt (snapshot.documentSemanticWorkspace ops document input) document position).map
        fun symbol =>
        .symbol symbol.1 symbol.2

/-- `references`. -/
def references (document : Str) (position : Nat) (includeDeclaration : Bool) : List Location :=
  match snapshot.targetAt ops document position with
  | none => []
  | some (.parameter owner hir definition) =>
    (if includeDeclaration = true then [owner.location definition.nameRange] else []) ++
      (parameterReferences hir definition).map fun reference => owner.location reference.nameRange
  | some (.symbol kind name) =>
    let all := snapshot.allSemanticsForSymbol ops [name]
    match snapshot.resolveSymbol ops all kind name with
    | .missing => []
    | .unique target => snapshot.collectReferences ops all kind name target includeDeclaration

/-! ## What is collected -/

/-- All references of a symbol that the searches come across. -/
def found (all : SemanticFile) (kind name : Str) : List ReferenceInternal :=
  (all.references.filter fun reference => isOf kind name reference.kind reference.name) ++
    snapshot.indexedReferences kind name ++
    (snapshot.lazyReferences kind name).filter fun reference =>
      isOf kind name reference.kind reference.name

/-- The locations on the way to the sort. -/
def collected (all : SemanticFile) (kind name : Str) (target : ResolutionDefinition)
    (includeDeclaration : Bool) : List Location :=
  (if includeDeclaration = true then [definitionSelectionLocation target] else []) ++
    (snapshot.found all kind name).map ReferenceInternal.location

variable {ops snapshot}

variable {all : SemanticFile} {target : ResolutionDefinition}

/-- Each reference with the name of a symbol that is resolved is one of its references. -/
theorem considerReference_eq {kind name : Str}
    (htarget : snapshot.resolveSymbol ops all kind name = .unique target)
    (reference : ReferenceInternal) :
    snapshot.considerReference ops all kind name target reference =
      if isOf kind name reference.kind reference.name = true then
        some reference.location else none := by
  unfold considerReference
  split_ifs with hof
  · have hname : sameName reference.name name = true := by
      rw [isOf, Bool.and_eq_true] at hof
      exact hof.2
    rw [resolveSymbol_congr ops snapshot all kind hname, htarget]
    exact if_pos rfl
  · rfl

theorem filterMap_consider {kind name : Str}
    (htarget : snapshot.resolveSymbol ops all kind name = .unique target)
    (references : List ReferenceInternal) :
    references.filterMap (snapshot.considerReference ops all kind name target) =
      (references.filter fun reference => isOf kind name reference.kind reference.name).map
        ReferenceInternal.location := by
  induction references with
  | nil => rfl
  | cons reference references ih =>
    rw [List.filterMap_cons, considerReference_eq htarget, List.filter_cons, ih]
    split_ifs <;> rfl

omit [Std.TransOrd Path] in
theorem filter_indexedReferences (kind name : Str) :
    ((snapshot.indexedReferences kind name).filter fun reference =>
      isOf kind name reference.kind reference.name) = snapshot.indexedReferences kind name := by
  refine List.filter_eq_self.mpr fun reference hreference => ?_
  obtain ⟨entry, hentry, rfl⟩ := List.mem_map.mp hreference
  exact (List.mem_filter.mp hentry).2

theorem collectReferences_eq {kind name : Str}
    (htarget : snapshot.resolveSymbol ops all kind name = .unique target)
    (includeDeclaration : Bool) :
    snapshot.collectReferences ops all kind name target includeDeclaration =
      (sortByKey locationKey (snapshot.collected all kind name target includeDeclaration)).destutter
        (· ≠ ·) := by
  unfold collectReferences collected found
  dsimp only
  rw [filterMap_consider htarget, filterMap_consider htarget, filterMap_consider htarget,
    filter_indexedReferences, List.map_append, List.map_append]
  simp only [List.append_assoc]

theorem count_collectReferences {kind name : Str}
    (htarget : snapshot.resolveSymbol ops all kind name = .unique target)
    {includeDeclaration : Bool} {location : Location} :
    (snapshot.collectReferences ops all kind name target includeDeclaration).count location = 1 ↔
      location ∈ snapshot.collected all kind name target includeDeclaration ∧
        TogetherBy locationKey location
          (snapshot.collected all kind name target includeDeclaration) := by
  rw [collectReferences_eq htarget, count_destutter_eq_one, (perm_sortByKey _ _).mem_iff,
    together_sortByKey]

theorem mem_collectReferences {kind name : Str}
    (htarget : snapshot.resolveSymbol ops all kind name = .unique target)
    {includeDeclaration : Bool} {location : Location} :
    location ∈ snapshot.collectReferences ops all kind name target includeDeclaration ↔
      location ∈ snapshot.collected all kind name target includeDeclaration := by
  rw [collectReferences_eq htarget, mem_destutter_ne, (perm_sortByKey _ _).mem_iff]

end AnalysisSnapshot

/-! ## Where references stand -/

/-- A text has a word, whatever its case. -/
def Mentioned (source word : Str) : Prop :=
  word ≠ [] ∧ ∃ spelling, spelling <:+: source ∧ sameName spelling word = true

/-- A place: the source of a reference, the rank of a file or document in it, and the index
there. -/
def place (source rank index : ℕ) : ℕ ×ₗ ℕ ×ₗ ℕ := toLex (source, toLex (rank, index))

namespace AnalysisSnapshot

/-- A search for names reads a file whose facts depend on others, or that has one of the names. -/
def Searched (names : List Str) (fileId : Nat) : Prop :=
  ∃ state, snapshot.fileStates[fileId]? = some state ∧
    (state.symbolFactsDependency = true ∨ ∃ name ∈ names, Mentioned state.source name)

/-- The references of a symbol and their places: what template expansion finds in the files that are
searched, the facts of the open documents, the entries of the index, the rows of the caches. -/
inductive Stands (searched : Nat → Prop) (kind name : Str) : ℕ ×ₗ ℕ ×ₗ ℕ → ReferenceInternal → Prop
  | template {rank k fileId : Nat} {input : ParsedInput} {reference : ReferenceInternal}
      (hfile : (snapshot.sourceFiles.toList.map Prod.fst)[rank]? = some fileId)
      (hlive : fileId ∉ snapshot.overlayFileIds ops) (hsearched : searched fileId)
      (hinput : snapshot.fileInput fileId = some input)
      (hreference : (collectTemplateSemantics (snapshot.fileOwner fileId) input {}).references[k]? =
        some reference)
      (hof : isOf kind name reference.kind reference.name = true) :
      Stands searched kind name (place 1 rank k) reference
  | document {rank k : Nat} {entry : Str × Document Path} {data : SemanticFile}
      {reference : ReferenceInternal} (hentry : snapshot.overlayDocuments[rank]? = some entry)
      (hdata : snapshot.documentSemantics ops entry.1 = some data)
      (hreference : data.references[k]? = some reference)
      (hof : isOf kind name reference.kind reference.name = true) :
      Stands searched kind name (place 2 rank k) reference
  | index {rank k : Nat} {entry : Nat × FileIndexShard} {reference : Reference}
      (hshard : snapshot.index.shards.toList[rank]? = some entry)
      (hreference : entry.2.references[k]? = some reference)
      (hof : isOf kind name reference.kind reference.name = true) :
      Stands searched kind name (place 3 rank k)
        (snapshot.indexedReference entry.2.fileId reference)
  | cache {rank k : Nat} {rows : List (Nat × Reference)} {row : Nat × Reference}
      (hrows : snapshot.referenceSources[rank]? = some rows) (hrow : rows[k]? = some row)
      (hof : isOf kind name row.2.kind row.2.name = true) :
      Stands searched kind name (place 4 rank k) (snapshot.indexedReference row.1 row.2)

/-- The declaration, if it is asked for, stands before the references. -/
inductive Seen (searched : Nat → Prop) (kind name : Str) (target : ResolutionDefinition)
    (includeDeclaration : Bool) : ℕ ×ₗ ℕ ×ₗ ℕ → Location → Prop
  | declaration (hinclude : includeDeclaration = true) :
      Seen searched kind name target includeDeclaration (place 0 0 0)
        (definitionSelectionLocation target)
  | reference {i : ℕ ×ₗ ℕ ×ₗ ℕ} {reference : ReferenceInternal}
      (hstands : snapshot.Stands ops searched kind name i reference) :
      Seen searched kind name target includeDeclaration i reference.location

/-- What a file gives to a search for names. -/
def searchedReferences (names : List Str) (fileId : Nat) : List ReferenceInternal :=
  snapshot.fileReferences ops (fun state =>
    state.symbolFactsDependency || (names.map toAsciiLowercase).any (mentions state.source)) fileId

end AnalysisSnapshot

section Layout

omit [Std.TransOrd Path]

variable {ops snapshot}

theorem mentions_iff {source word : Str} :
    mentions source (toAsciiLowercase word) = true ↔ Mentioned source word := by
  have hcase : ∀ spelling : Str,
      eqIgnoreAsciiCase spelling (toAsciiLowercase word) = true ↔
      sameName spelling word = true := by
    intro spelling
    unfold toAsciiLowercase
    rw [sameName_iff, eqIgnoreAsciiCase, beq_iff_eq, List.map_map]
    have hidem : word.map (Char.toLower ∘ Char.toLower) = word.map Char.toLower :=
      List.map_congr_left fun c _ => AsciiCase.toLower_toLower c
    rw [hidem]
  unfold mentions Mentioned
  rw [Bool.and_eq_true, List.any_eq_true]
  refine and_congr ?_ ⟨?_, ?_⟩
  · cases word <;> simp [toAsciiLowercase]
  · rintro ⟨tail, htail, heq⟩
    refine ⟨_, ?_, (hcase _).mp heq⟩
    exact (List.take_prefix _ tail).isInfix.trans ((List.mem_tails _ _).mp htail).isInfix
  · rintro ⟨spelling, ⟨front, back, rfl⟩, hsame⟩
    refine ⟨spelling ++ back, ?_, (hcase _).mpr ?_⟩
    · rw [List.mem_tails, List.append_assoc]
      exact List.suffix_append front _
    · have hlength : (toAsciiLowercase word).length = spelling.length := by
        have h := congrArg List.length (sameName_iff.mp hsame)
        rw [List.length_map, List.length_map] at h
        rw [toAsciiLowercase, List.length_map, h]
      rwa [hlength, List.take_left]

/-- The filter of `all_semantics_for_symbol`. -/
theorem searched_iff {names : List Str} {fileId : Nat} :
    snapshot.Searched names fileId ↔ ∃ state, snapshot.fileStates[fileId]? = some state ∧
      (state.symbolFactsDependency || (names.map toAsciiLowercase).any (mentions state.source)) =
        true := by
  unfold AnalysisSnapshot.Searched
  refine exists_congr fun state => and_congr_right fun _ => ?_
  simp only [Bool.or_eq_true, List.any_map, List.any_eq_true, Function.comp_apply, mentions_iff]

/-- What a file gives is what template expansion finds in it, if the file is live and searched. -/
theorem getElem?_searchedReferences {names : List Str} {fileId k : Nat}
    {reference : ReferenceInternal} :
    (snapshot.searchedReferences ops names fileId)[k]? = some reference ↔
      fileId ∉ snapshot.overlayFileIds ops ∧ snapshot.Searched names fileId ∧
        ∃ input, snapshot.fileInput fileId = some input ∧
          (collectTemplateSemantics (snapshot.fileOwner fileId) input {}).references[k]? =
            some reference := by
  rw [searched_iff]
  unfold AnalysisSnapshot.searchedReferences AnalysisSnapshot.fileReferences
    AnalysisSnapshot.takeFile
  by_cases hhidden : fileId ∈ snapshot.overlayFileIds ops
  · rw [if_pos hhidden]
    exact iff_of_false (by simp) fun h => h.1 hhidden
  · rw [if_neg hhidden, and_iff_right hhidden]
    cases hstate : snapshot.fileStates[fileId]? with
    | none =>
      exact iff_of_false (by dsimp only; split_ifs <;> simp) fun ⟨⟨_, h, _⟩, _⟩ => by cases h
    | some state =>
      dsimp only
      by_cases hfilter : (state.symbolFactsDependency ||
          (names.map toAsciiLowercase).any (mentions state.source)) = true
      · rw [if_pos hfilter, and_iff_right ⟨state, rfl, hfilter⟩]
        cases hinput : snapshot.fileInput fileId with
        | none => exact iff_of_false (by dsimp only; split_ifs <;> simp) fun ⟨_, h, _⟩ => by cases h
        | some input => split_ifs <;> simp [SemanticFile.extend]
      · rw [if_neg hfilter]
        refine iff_of_false (by split_ifs <;> simp) ?_
        rintro ⟨⟨_, hother, h⟩, -⟩
        obtain rfl := Option.some.inj hother
        exact hfilter h

theorem getElem?_documentFacts {entry : Str × Document Path} {k : Nat}
    {reference : ReferenceInternal} :
    (snapshot.documentFacts ops entry).references[k]? = some reference ↔
      ∃ data, snapshot.documentSemantics ops entry.1 = some data ∧
      data.references[k]? = some reference := by
  unfold AnalysisSnapshot.documentFacts
  cases snapshot.documentSemantics ops entry.1 <;> simp

theorem references_allSemanticsForSymbol (names : List Str) :
    (snapshot.allSemanticsForSymbol ops names).references =
      (snapshot.sourceFiles.toList.map Prod.fst).flatMap (snapshot.searchedReferences ops names) ++
        snapshot.overlayDocuments.flatMap fun entry =>
          (snapshot.documentFacts ops entry).references :=
  AnalysisSnapshot.references_allSemanticsInner ops snapshot _

theorem place_lt_place {source rank index source' rank' index' : ℕ} :
    place source rank index < place source' rank' index' ↔
      source < source' ∨ source = source' ∧ (rank < rank' ∨ rank = rank' ∧ index < index') := by
  unfold place
  rw [Prod.Lex.toLex_lt_toLex, Prod.Lex.toLex_lt_toLex]

/-- References of several files or documents, those of a symbol, at their places. -/
theorem laidOut_source {β γ : Type*} (source : ℕ) (keep : β → Bool) (f : β → ReferenceInternal)
    (zs : List γ) (g : γ → List β) :
    LaidOut (fun i reference => ∃ rank z, zs[rank]? = some z ∧ ∃ k b, (g z)[k]? = some b ∧
        keep b = true ∧ i = place source rank k ∧ reference = f b)
      (((zs.flatMap g).filter keep).map f) := by
  rw [List.filter_flatMap, List.map_flatMap]
  refine LaidOut.flatMap zs (fun rank z _ => LaidOut.filter_map ?_ keep f (g z)) ?_
  · exact fun _ _ h => place_lt_place.mpr (.inr ⟨rfl, .inr ⟨rfl, h⟩⟩)
  · rintro rank z i a ⟨k, _, -, -, rfl, -⟩ rank' z' j b hlt ⟨k', _, -, -, rfl, -⟩
    exact place_lt_place.mpr (.inr ⟨rfl, .inl hlt⟩)

/-- The rows of a symbol: the lookup of the caches leaves out others only. -/
theorem filter_lazyReferences (kind name : Str) :
    (snapshot.lazyReferences kind name).filter (fun reference =>
        isOf kind name reference.kind reference.name) =
      ((snapshot.referenceSources.flatMap id).filter fun row =>
        isOf kind name row.2.kind row.2.name).map fun row =>
          snapshot.indexedReference row.1 row.2 := by
  unfold AnalysisSnapshot.lazyReferences AnalysisSnapshot.lazyReferencesFor
  rw [List.filter_map, List.filter_flatMap, List.filter_flatMap]
  refine congrArg _ (congrArg (List.flatMap · _) (funext fun rows => ?_))
  rw [List.filter_filter]
  refine List.filter_congr fun row _ => ?_
  change (isOf kind name row.2.kind row.2.name && _) = _
  rw [Bool.and_eq_left_iff_imp]
  intro hof
  rw [isOf, Bool.and_eq_true, beq_iff_eq] at hof
  rw [hof.1, Bool.and_eq_true]
  exact ⟨sameName_iff.mpr rfl, hof.2⟩

/-- What a search comes across stands at ascending places. -/
theorem laidOut_found (names : List Str) (kind name : Str) :
    LaidOut (snapshot.Stands ops (snapshot.Searched names) kind name)
      (snapshot.found (snapshot.allSemanticsForSymbol ops names) kind name) := by
  have htemplate := laidOut_source 1 (fun reference : ReferenceInternal =>
    isOf kind name reference.kind reference.name) id (snapshot.sourceFiles.toList.map Prod.fst)
      (snapshot.searchedReferences ops names)
  have hdocument := laidOut_source 2 (fun reference : ReferenceInternal =>
    isOf kind name reference.kind reference.name) id snapshot.overlayDocuments
      fun entry => (snapshot.documentFacts ops entry).references
  have hindex := laidOut_source 3 (fun entry : Nat × Reference =>
    isOf kind name entry.2.kind entry.2.name) (fun entry =>
      snapshot.indexedReference entry.1 entry.2) snapshot.index.shards.toList
        fun entry => entry.2.references.map fun reference => (entry.2.fileId, reference)
  have hcache := laidOut_source 4 (fun row : Nat × Reference =>
    isOf kind name row.2.kind row.2.name) (fun row => snapshot.indexedReference row.1 row.2)
    snapshot.referenceSources id
  rw [List.map_id] at htemplate hdocument
  unfold AnalysisSnapshot.found AnalysisSnapshot.indexedReferences
    Workspace.WorkspaceIndex.referencesIter
  rw [references_allSemanticsForSymbol, List.filter_append, filter_lazyReferences]
  refine (((htemplate.append hdocument ?_).append hindex ?_).append hcache ?_).congr ?_
  · rintro i a ⟨rank, _, -, k, _, -, -, rfl, -⟩ j b ⟨rank', _, -, k', _, -, -, rfl, -⟩
    exact place_lt_place.mpr (.inl (by decide))
  · rintro i a (⟨rank, _, -, k, _, -, -, rfl, -⟩ | ⟨rank, _, -, k, _, -, -, rfl, -⟩) j b
      ⟨rank', _, -, k', _, -, -, rfl, -⟩ <;> exact place_lt_place.mpr (.inl (by decide))
  · rintro i a ((⟨rank, _, -, k, _, -, -, rfl, -⟩ | ⟨rank, _, -, k, _, -, -, rfl, -⟩) |
      ⟨rank, _, -, k, _, -, -, rfl, -⟩) j b ⟨rank', _, -, k', _, -, -, rfl, -⟩ <;>
        exact place_lt_place.mpr (.inl (by decide))
  · intro i reference
    constructor
    · rintro (((⟨rank, fileId, hfile, k, _, hreference, hof, rfl, rfl⟩ |
          ⟨rank, entry, hentry, k, _, hreference, hof, rfl, rfl⟩) |
          ⟨rank, entry, hshard, k, _, hreference, hof, rfl, rfl⟩) |
          ⟨rank, rows, hrows, k, row, hrow, hof, rfl, rfl⟩)
      · obtain ⟨hlive, hsearched, input, hinput, hreference⟩ :=
          getElem?_searchedReferences.mp hreference
        exact .template hfile hlive hsearched hinput hreference hof
      · obtain ⟨data, hdata, hreference⟩ := getElem?_documentFacts.mp hreference
        exact .document hentry hdata hreference hof
      · rw [List.getElem?_map, Option.map_eq_some_iff] at hreference
        obtain ⟨reference, hreference, rfl⟩ := hreference
        exact .index hshard hreference hof
      · exact .cache hrows hrow hof
    · intro h
      cases h with
      | template hfile hlive hsearched hinput hreference hof =>
        have hfound := getElem?_searchedReferences.mpr ⟨hlive, hsearched, _, hinput, hreference⟩
        exact .inl (.inl (.inl ⟨_, _, hfile, _, _, hfound, hof, rfl, rfl⟩))
      | document hentry hdata hreference hof =>
        have hfound := getElem?_documentFacts.mpr ⟨_, hdata, hreference⟩
        exact .inl (.inl (.inr ⟨_, _, hentry, _, _, hfound, hof, rfl, rfl⟩))
      | @index rank k entry reference hshard hreference hof =>
        refine .inl (.inr ⟨rank, entry, hshard, k, (entry.2.fileId, reference), ?_, hof, rfl, rfl⟩)
        rw [List.getElem?_map, hreference]
        rfl
      | cache hrows hrow hof => exact .inr ⟨_, _, hrows, _, _, hrow, hof, rfl, rfl⟩

/-- The locations on the way to the sort stand at ascending places. -/
theorem laidOut_collected (names : List Str) (kind name : Str) (target : ResolutionDefinition)
    (includeDeclaration : Bool) :
    LaidOut (snapshot.Seen ops (snapshot.Searched names) kind name target includeDeclaration)
      (snapshot.collected (snapshot.allSemanticsForSymbol ops names) kind name target
        includeDeclaration) := by
  have hstands : LaidOut (snapshot.Stands ops (snapshot.Searched names) kind name) _ :=
    laidOut_found names kind name
  have hfound := hstands.map ReferenceInternal.location
  have hpositive : ∀ {i reference}, snapshot.Stands ops (snapshot.Searched names) kind
    name i reference →
      place 0 0 0 < i := by
    intro i reference h
    cases h <;> exact place_lt_place.mpr (.inl (by decide))
  unfold AnalysisSnapshot.collected
  cases includeDeclaration with
  | false =>
    rw [if_neg Bool.false_ne_true, List.nil_append]
    refine hfound.congr fun i location => ⟨?_, ?_⟩
    · rintro ⟨reference, hstands, rfl⟩
      exact .reference hstands
    · rintro (⟨hinclude⟩ | ⟨hstands⟩)
      · cases hinclude
      · exact ⟨_, hstands, rfl⟩
  | true =>
    rw [if_pos rfl]
    refine ((LaidOut.singleton (place 0 0 0) (definitionSelectionLocation target)).append hfound
      ?_).congr fun i location => ⟨?_, ?_⟩
    · rintro i a ⟨rfl, -⟩ j b ⟨reference, hstands, -⟩
      exact hpositive hstands
    · rintro (⟨rfl, rfl⟩ | ⟨reference, hstands, rfl⟩)
      · exact .declaration rfl
      · exact .reference hstands
    · rintro (⟨-⟩ | ⟨hstands⟩)
      · exact .inl ⟨rfl, rfl⟩
      · exact .inr ⟨_, hstands, rfl⟩

end Layout

/-! ## Live text -/

/-- The text of a location is that of a disk file whose text an open document has. -/
def AnalysisSnapshot.Hidden (location : Location) : Prop :=
  location.document = none ∧ ∃ fileId ∈ snapshot.overlayFileIds ops, location.file = some fileId

/-- The references of a symbol in live text: in open documents, and in files that none of them
owns. -/
def AnalysisSnapshot.Live (searched : Nat → Prop) (kind name : Str)
    (reference : ReferenceInternal) : Prop :=
  (∃ i, snapshot.Stands ops searched kind name i reference) ∧
    ¬ snapshot.Hidden ops reference.location

/-- A reference of a symbol in live text has a location, whether its file is searched or not. -/
def AnalysisSnapshot.Occurs (kind name : Str) (location : Location) : Prop :=
  ∃ reference, snapshot.Live ops (fun _ => True) kind name reference ∧ reference.location = location

/-- What is reported is live, and what occurs is reported once. -/
structure AnalysisSnapshot.ReportsLive (occurs : Location → Prop)
    (reported : List Location) : Prop where
  live : ∀ location ∈ reported, ¬ snapshot.Hidden ops location
  once : ∀ location, occurs location → reported.count location = 1

/-- When a search for a symbol that is resolved reports live text only. -/
structure AnalysisSnapshot.Clean (kind name : Str) (target : ResolutionDefinition)
    (includeDeclaration : Bool) : Prop where
  /-- No shard of a file that an open document owns has a reference of the symbol. -/
  index : ∀ entry ∈ snapshot.index.shards.toList, ∀ reference ∈ entry.2.references,
    isOf kind name reference.kind reference.name = true →
      entry.2.fileId ∉ snapshot.overlayFileIds ops
  /-- Nor has a row of an installed cache. -/
  caches : ∀ rows ∈ snapshot.referenceSources, ∀ row ∈ rows,
    isOf kind name row.2.kind row.2.name = true → row.1 ∉ snapshot.overlayFileIds ops
  /-- Where a live file is not searched, each of its references is the declaration that is asked for,
  or at a location that a searched file, a document, the index or a cache has as well. -/
  searched : ∀ reference, snapshot.Live ops (fun _ => True) kind name reference →
    includeDeclaration = true ∧ reference.location = definitionSelectionLocation target ∨
      ∃ other, snapshot.Live ops (snapshot.Searched [name]) kind name other ∧
        other.location = reference.location
  /-- No other location with the path and the start of a location is between two copies of it. -/
  together : ∀ i j k location other, i < j → j < k →
    snapshot.Seen ops (snapshot.Searched [name]) kind name target includeDeclaration i location →
    snapshot.Seen ops (snapshot.Searched [name]) kind name target includeDeclaration j other →
    snapshot.Seen ops (snapshot.Searched [name]) kind name target includeDeclaration k location →
      other.path.getD [] = location.path.getD [] → other.range.start = location.range.start →
        other = location

/-- What a search may report: the declaration, if it is asked for, and the references. -/
def AnalysisSnapshot.OccursOf (includeDeclaration : Bool) : Option Target → Location → Prop
  | none, _ => False
  | some (.parameter owner hir definition), location =>
    includeDeclaration = true ∧ location = owner.location definition.nameRange ∨
      ∃ reference ∈ parameterReferences hir definition,
        location = owner.location reference.nameRange
  | some (.symbol kind name), location =>
    ∃ target, snapshot.resolveSymbol ops (snapshot.allSemanticsForSymbol ops [name]) kind name =
      .unique target ∧ (includeDeclaration = true ∧ location = definitionSelectionLocation target ∨
        snapshot.Occurs ops kind name location)

/-- When a search reports live text only. -/
def AnalysisSnapshot.CleanOf (includeDeclaration : Bool) : Option Target → Prop
  | none => True
  | some (.parameter _ hir definition) =>
    ((parameterReferences hir definition).map ParameterReference.nameRange).Nodup
  | some (.symbol kind name) =>
    ∀ target, snapshot.resolveSymbol ops (snapshot.allSemanticsForSymbol ops [name]) kind name =
      .unique target → snapshot.Clean ops kind name target includeDeclaration

section Live

omit [Std.TransOrd Path]

variable {ops snapshot}

/-- The winner is one of the candidates. -/
theorem mem_of_winner {candidates : List ResolutionDefinition} {target : ResolutionDefinition}
    (h : winner candidates = .unique target) : target ∈ candidates := by
  unfold winner at h
  cases hlast : (retainHighestAndOrder candidates).getLast? with
  | none =>
    rw [hlast] at h
    cases h
  | some last =>
    rw [hlast] at h
    obtain rfl := Resolution.unique.inj h
    exact (List.mem_filter.mp ((perm_sortByKey _ _).mem_iff.mp (List.mem_of_getLast? hlast))).1

theorem preferLocalisationLanguageOrdered_subset (candidates : List ResolutionDefinition)
    (languages : List Str) : preferLocalisationLanguageOrdered candidates languages ⊆
      candidates := by
  unfold preferLocalisationLanguageOrdered
  split_ifs
  · exact List.Subset.refl candidates
  · dsimp only
    cases hfound : List.find? (fun found => !List.isEmpty found) (languages.map fun language =>
        candidates.filter fun candidate =>
          (localisationLanguage candidate.location.path).any (eqIgnoreAsciiCase · language)) with
    | none => exact List.Subset.refl candidates
    | some preferred =>
      obtain ⟨language, -, rfl⟩ := List.mem_map.mp (List.mem_of_find?_eq_some hfound)
      exact List.filter_subset_self _

theorem preferLanguageOf_subset (kind : Str) (candidates : List ResolutionDefinition) :
    snapshot.preferLanguageOf kind candidates ⊆ candidates := by
  unfold AnalysisSnapshot.preferLanguageOf
  split_ifs
  · exact preferLocalisationLanguageOrdered_subset candidates _
  · exact List.Subset.refl candidates

theorem orderCandidates_subset (candidates : List ResolutionDefinition) :
    orderCandidates candidates ⊆ candidates := fun _ h =>
  (perm_sortByKey _ _).subset ((List.destutter_sublist _ _).subset h)

/-- No candidate is in the disk text of a file that an open document owns. -/
theorem not_hidden_of_resolveSymbol [Std.TransOrd Path] {all : SemanticFile} {kind name : Str}
    {target : ResolutionDefinition}
    (h : snapshot.resolveSymbol ops all kind name = .unique target) :
    ¬ snapshot.Hidden ops (definitionSelectionLocation target) := by
  have hmem := orderCandidates_subset _ (preferLanguageOf_subset kind _ (mem_of_winner h))
  rintro ⟨hdocument, fileId, hfileId, hfile⟩
  rcases List.mem_append.mp hmem with hmem | hmem
  · obtain ⟨definition, hdefinition, rfl⟩ := List.mem_map.mp hmem
    have hkeep := (List.mem_filter.mp hdefinition).2
    change definition.owner.document = none at hdocument
    change definition.owner.file = some fileId at hfile
    simp [hdocument, hfile, hfileId] at hkeep
  · obtain ⟨definition, hdefinition, rfl⟩ := List.mem_map.mp hmem
    have hkeep := (List.mem_filter.mp hdefinition).2
    obtain rfl : definition.fileId = fileId := Option.some.inj hfile
    simp [hfileId] at hkeep

/-- The facts of an open document are not hidden. -/
theorem not_hidden_of_document {id : Str} {data : SemanticFile} {reference : ReferenceInternal}
    (hdata : snapshot.documentSemantics ops id = some data) (h : reference ∈ data.references) :
    ¬ snapshot.Hidden ops reference.location := by
  obtain ⟨input, -, hof⟩ := AnalysisSnapshot.of_documentSemantics ops snapshot hdata
  rintro ⟨hdocument, -⟩
  change reference.owner.document = none at hdocument
  rw [hof.references reference h] at hdocument
  cases hdocument

theorem not_hidden_of_file {fileId : Nat} {range : TextRange}
    (h : fileId ∉ snapshot.overlayFileIds ops) :
    ¬ snapshot.Hidden ops ((snapshot.fileOwner fileId).location range) := by
  rintro ⟨-, other, hother, hfile⟩
  obtain rfl : fileId = other := Option.some.inj hfile
  exact h hother

theorem hidden_of_file {fileId : Nat} {range : TextRange}
    (h : fileId ∈ snapshot.overlayFileIds ops) :
    snapshot.Hidden ops ((snapshot.fileOwner fileId).location range) := ⟨rfl, fileId, h, rfl⟩

namespace AnalysisSnapshot

variable {searched : Nat → Prop} {kind name : Str} {i : ℕ ×ₗ ℕ ×ₗ ℕ} {reference : ReferenceInternal}

theorem Stands.mono {other : Nat → Prop} (h : snapshot.Stands ops searched kind name i reference)
    (hmono : ∀ fileId, searched fileId → other fileId) :
    snapshot.Stands ops other kind name i reference := by
  cases h with
  | template hfile hlive hsearched hinput hreference hof =>
    exact .template hfile hlive (hmono _ hsearched) hinput hreference hof
  | document hentry hdata hreference hof => exact .document hentry hdata hreference hof
  | index hshard hreference hof => exact .index hshard hreference hof
  | cache hrows hrow hof => exact .cache hrows hrow hof

theorem Stands.isOf (h : snapshot.Stands ops searched kind name i reference) :
    isOf kind name reference.kind reference.name = true := by
  cases h <;> assumption

/-- A reference is not hidden, as long as no shard and no row is that of a hidden file. -/
theorem Stands.not_hidden (h : snapshot.Stands ops searched kind name i reference)
    (hindex : ∀ entry ∈ snapshot.index.shards.toList, ∀ reference ∈ entry.2.references,
      Ide.isOf kind name reference.kind reference.name = true →
        entry.2.fileId ∉ snapshot.overlayFileIds ops)
    (hcaches : ∀ rows ∈ snapshot.referenceSources, ∀ row ∈ rows,
      Ide.isOf kind name row.2.kind row.2.name = true → row.1 ∉ snapshot.overlayFileIds ops) :
    ¬ snapshot.Hidden ops reference.location := by
  cases h with
  | template _ hlive _ _ hreference _ =>
    have howner := (SemanticFile.Of.empty.collectTemplateSemantics _).references _
      (List.mem_of_getElem? hreference)
    unfold ReferenceInternal.location
    rw [howner]
    exact not_hidden_of_file hlive
  | document _ hdata hreference _ =>
    exact not_hidden_of_document hdata (List.mem_of_getElem? hreference)
  | index hshard hreference hof =>
    exact not_hidden_of_file
      (hindex _ (List.mem_of_getElem? hshard) _ (List.mem_of_getElem? hreference) hof)
  | cache hrows hrow hof =>
    exact not_hidden_of_file
      (hcaches _ (List.mem_of_getElem? hrows) _ (List.mem_of_getElem? hrow) hof)

end AnalysisSnapshot

section Symbol

variable {kind name : Str} {target : ResolutionDefinition} {includeDeclaration : Bool}

theorem mem_collected {all : SemanticFile} {location : Location} :
    location ∈ snapshot.collected all kind name target includeDeclaration ↔
      includeDeclaration = true ∧ location = definitionSelectionLocation target ∨
        ∃ reference ∈ snapshot.found all kind name, location = reference.location := by
  unfold AnalysisSnapshot.collected
  rw [List.mem_append, List.mem_map]
  refine or_congr ?_ ⟨?_, ?_⟩
  · cases includeDeclaration <;> simp
  · rintro ⟨reference, hreference, rfl⟩
    exact ⟨reference, hreference, rfl⟩
  · rintro ⟨reference, hreference, rfl⟩
    exact ⟨reference, hreference, rfl⟩

theorem collected_of_stands {names : List Str} {i : ℕ ×ₗ ℕ ×ₗ ℕ} {reference : ReferenceInternal}
    (h : snapshot.Stands ops (snapshot.Searched names) kind name i reference) :
    reference.location ∈ snapshot.collected (snapshot.allSemanticsForSymbol ops names)
      kind name target
      includeDeclaration :=
  mem_collected.mpr (.inr ⟨reference, (laidOut_found names kind name).mem_iff.mpr ⟨i, h⟩, rfl⟩)

/-- A search for a symbol that is resolved reports live text exactly under the condition. -/
theorem reportsLive_iff [Std.TransOrd Path]
    (htarget : snapshot.resolveSymbol ops (snapshot.allSemanticsForSymbol ops [name]) kind name =
      .unique target) :
    snapshot.ReportsLive ops
        (fun location => includeDeclaration = true ∧ location = definitionSelectionLocation target ∨
          snapshot.Occurs ops kind name location)
        (snapshot.collectReferences ops (snapshot.allSemanticsForSymbol ops [name]) kind name target
          includeDeclaration) ↔
      snapshot.Clean ops kind name target includeDeclaration := by
  have hlaid : LaidOut (snapshot.Seen ops (snapshot.Searched [name]) kind name target
      includeDeclaration) _ := laidOut_collected [name] kind name target includeDeclaration
  constructor
  · intro h
    have hlive : ∀ {i reference}, snapshot.Stands ops (snapshot.Searched [name]) kind
      name i reference →
        ¬ snapshot.Hidden ops reference.location := fun hstands =>
      h.live _ ((AnalysisSnapshot.mem_collectReferences htarget).mpr (collected_of_stands hstands))
    refine ⟨?_, ?_, ?_, ?_⟩
    · intro entry hentry reference hreference hof hhidden
      obtain ⟨rank, hshard⟩ := List.mem_iff_getElem?.mp hentry
      obtain ⟨k, hreference⟩ := List.mem_iff_getElem?.mp hreference
      exact hlive (.index hshard hreference hof) (hidden_of_file hhidden)
    · intro rows hrows row hrow hof hhidden
      obtain ⟨rank, hrows⟩ := List.mem_iff_getElem?.mp hrows
      obtain ⟨k, hrow⟩ := List.mem_iff_getElem?.mp hrow
      exact hlive (.cache hrows hrow hof) (hidden_of_file hhidden)
    · intro reference hreference
      have hcount := h.once _ (.inr ⟨reference, hreference, rfl⟩)
      rcases mem_collected.mp ((AnalysisSnapshot.count_collectReferences htarget).mp hcount).1 with
        hdeclaration | ⟨other, hother, hlocation⟩
      · exact .inl hdeclaration
      · obtain ⟨i, hstands⟩ := (laidOut_found [name] kind name).mem_iff.mp hother
        exact .inr ⟨other, ⟨⟨i, hstands⟩, hlive hstands⟩, hlocation.symm⟩
    · intro i j k location other hij hjk hi hj hk hpath hstart
      have hoccurs : includeDeclaration = true ∧ location = definitionSelectionLocation target ∨
          snapshot.Occurs ops kind name location := by
        cases hi with
        | declaration hinclude => exact .inl ⟨hinclude, rfl⟩
        | reference hstands =>
          exact .inr ⟨_, ⟨⟨i, hstands.mono fun _ _ => trivial⟩, hlive hstands⟩, rfl⟩
      have htogether := ((AnalysisSnapshot.count_collectReferences htarget).mp (h.once _ hoccurs)).2
      have hkey : locationKey other = locationKey location := by
        unfold locationKey
        rw [hpath, hstart]
      exact htogether other hkey (hlaid.triple_iff.mpr ⟨i, j, k, hij, hjk, hi, hj, hk⟩)
  · intro h
    constructor
    · intro location hlocation
      rcases mem_collected.mp ((AnalysisSnapshot.mem_collectReferences htarget).mp hlocation) with
        ⟨-, rfl⟩ | ⟨reference, hfound, rfl⟩
      · exact not_hidden_of_resolveSymbol htarget
      · obtain ⟨i, hstands⟩ := (laidOut_found [name] kind name).mem_iff.mp hfound
        exact hstands.not_hidden h.index h.caches
    · intro location hoccurs
      refine (AnalysisSnapshot.count_collectReferences htarget).mpr ⟨?_, ?_⟩
      · rcases hoccurs with hdeclaration | ⟨reference, hreference, rfl⟩
        · exact mem_collected.mpr (.inl hdeclaration)
        · rcases h.searched reference hreference with hdeclaration | ⟨other, hother, hlocation⟩
          · exact mem_collected.mpr (.inl hdeclaration)
          · obtain ⟨i, hstands⟩ := hother.1
            exact hlocation ▸ collected_of_stands hstands
      · intro other hkey hsub
        obtain ⟨i, j, k, hij, hjk, hi, hj, hk⟩ := hlaid.triple_iff.mp hsub
        obtain ⟨hpath, hstart⟩ := Prod.mk.inj (toLex_inj.mp hkey)
        exact h.together i j k location other hij hjk hi hj hk hpath hstart

theorem reportsLive_nil {occurs : Location → Prop} (h : ∀ location, ¬ occurs location) :
    snapshot.ReportsLive ops occurs [] where
  live _ hlocation := absurd hlocation List.not_mem_nil
  once location hlocation := absurd hlocation (h location)

theorem symbol_reportsLive_iff [Std.TransOrd Path] :
    snapshot.ReportsLive ops (snapshot.OccursOf ops includeDeclaration (some (.symbol kind name)))
        (match snapshot.resolveSymbol ops (snapshot.allSemanticsForSymbol ops [name]) kind name with
          | .missing => []
          | .unique target => snapshot.collectReferences ops
              (snapshot.allSemanticsForSymbol ops [name]) kind name
              target includeDeclaration) ↔
      snapshot.CleanOf ops includeDeclaration (some (.symbol kind name)) := by
  unfold AnalysisSnapshot.OccursOf AnalysisSnapshot.CleanOf
  cases htarget : snapshot.resolveSymbol ops (snapshot.allSemanticsForSymbol ops [name])
    kind name with
  | missing =>
    refine iff_of_true (reportsLive_nil ?_) ?_
    · rintro location ⟨target, hunique, -⟩
      rw [htarget] at hunique
      cases hunique
    · intro target hunique
      rw [htarget] at hunique
      cases hunique
  | unique target =>
    have hoccurs : ∀ location, (∃ other,
        snapshot.resolveSymbol ops (snapshot.allSemanticsForSymbol ops [name]) kind name =
          .unique other ∧ (includeDeclaration = true ∧
          location = definitionSelectionLocation other ∨
            snapshot.Occurs ops kind name location)) ↔
        includeDeclaration = true ∧ location = definitionSelectionLocation target ∨
          snapshot.Occurs ops kind name location := by
      intro location
      constructor
      · rintro ⟨other, hother, h⟩
        obtain rfl := Resolution.unique.inj (htarget.symm.trans hother)
        exact h
      · exact fun h => ⟨target, htarget, h⟩
    dsimp only
    rw [funext fun location => propext (hoccurs location), reportsLive_iff htarget]
    constructor
    · rintro h other hother
      obtain rfl := Resolution.unique.inj (htarget.symm.trans hother)
      exact h
    · exact fun h => h target htarget

end Symbol

theorem document_of_targetAt {document : Str} {position : Nat} {owner : Owner} {hir : HirFile}
    {definition : ParameterDefinition}
    (h : snapshot.targetAt ops document position = some (.parameter owner hir definition)) :
    owner.document ≠ none := by
  obtain ⟨input, -, h⟩ := Option.bind_eq_some_iff.mp h
  split at h
  · obtain ⟨rfl, -, -⟩ := Target.parameter.inj (Option.some.inj h)
    exact Option.some_ne_none document
  · obtain ⟨_, -, h⟩ := Option.map_eq_some_iff.mp h
    cases h

theorem location_injective (owner : Owner) : Function.Injective owner.location := by
  intro left right h
  exact congrArg Location.range h

/-- A search for a parameter reports the ranges of its references as they are. -/
theorem parameter_reportsLive_iff [Std.TransOrd Path] {owner : Owner} {hir : HirFile}
    {definition : ParameterDefinition}
    {includeDeclaration : Bool} (howner : owner.document ≠ none) :
    snapshot.ReportsLive ops
        (snapshot.OccursOf ops includeDeclaration (some (.parameter owner hir definition)))
        ((if includeDeclaration = true then [owner.location definition.nameRange] else []) ++
          (parameterReferences hir definition).map fun reference =>
            owner.location reference.nameRange) ↔
      ((parameterReferences hir definition).map ParameterReference.nameRange).Nodup := by
  have hdeclared : ∀ reference ∈ parameterReferences hir definition,
      reference.nameRange ≠ definition.nameRange := by
    intro reference hreference
    have hkeep := (List.mem_filter.mp hreference).2
    rw [Bool.and_eq_true, bne_iff_ne] at hkeep
    exact hkeep.2
  have hnodup :
    (((if includeDeclaration = true then [owner.location definition.nameRange] else []) ++
        (parameterReferences hir definition).map fun reference =>
          owner.location reference.nameRange).Nodup ↔
      ((parameterReferences hir definition).map ParameterReference.nameRange).Nodup) := by
    rw [← List.nodup_map_iff (location_injective owner), List.map_map]
    constructor
    · intro h
      exact h.of_append_right
    · intro h
      refine List.nodup_append.mpr ⟨by split_ifs <;> simp, h, ?_⟩
      intro left hleft right hright heq
      split_ifs at hleft with hinclude
      · obtain ⟨reference, hreference, rfl⟩ := List.mem_map.mp hright
        rw [List.mem_singleton.mp hleft] at heq
        exact hdeclared reference hreference (location_injective owner heq).symm
      · exact List.not_mem_nil hleft
  have hmem : ∀ location, snapshot.OccursOf ops includeDeclaration
    (some (.parameter owner hir definition)) location ↔
      location ∈ (if includeDeclaration = true then [owner.location definition.nameRange] else
        []) ++
        (parameterReferences hir definition).map fun reference =>
          owner.location reference.nameRange := by
    intro location
    rw [List.mem_append, List.mem_map]
    refine or_congr ?_ ⟨?_, ?_⟩
    · cases includeDeclaration <;> simp
    · rintro ⟨reference, hreference, rfl⟩
      exact ⟨reference, hreference, rfl⟩
    · rintro ⟨reference, hreference, rfl⟩
      exact ⟨reference, hreference, rfl⟩
  rw [← hnodup]
  constructor
  · intro h
    refine List.nodup_iff_count_le_one.mpr fun location => ?_
    by_cases hlocation : location ∈ (if includeDeclaration = true then
      [owner.location definition.nameRange] else []) ++
        (parameterReferences hir definition).map fun reference => owner.location reference.nameRange
    · exact (h.once location ((hmem location).mpr hlocation)).le
    · exact (List.count_eq_zero.mpr hlocation).trans_le (Nat.zero_le 1)
  · intro h
    constructor
    · rintro location hlocation ⟨hdocument, -⟩
      rcases (hmem location).mpr hlocation with ⟨-, rfl⟩ | ⟨reference, -, rfl⟩ <;>
        exact howner hdocument
    · intro location hlocation
      exact List.count_eq_one_of_mem h ((hmem location).mp hlocation)

end Live

/-- Both searches report live text only, and all of it once, exactly under their conditions. -/
theorem references_live_iff :
    (∀ (kind name : Str) (includeDeclaration : Bool),
      snapshot.ReportsLive ops (snapshot.OccursOf ops includeDeclaration (some (.symbol kind name)))
          (((snapshot.symbolReferences ops kind name includeDeclaration).map Prod.snd).getD []) ↔
        snapshot.CleanOf ops includeDeclaration (some (.symbol kind name))) ∧
    ∀ (document : Str) (position : Nat) (includeDeclaration : Bool),
      snapshot.ReportsLive ops
          (snapshot.OccursOf ops includeDeclaration (snapshot.targetAt ops document position))
          (snapshot.references ops document position includeDeclaration) ↔
        snapshot.CleanOf ops includeDeclaration (snapshot.targetAt ops document position) := by
  constructor
  · intro kind name includeDeclaration
    rw [← symbol_reportsLive_iff]
    refine Iff.of_eq (congrArg _ ?_)
    unfold AnalysisSnapshot.symbolReferences
    dsimp only
    cases snapshot.resolveSymbol ops (snapshot.allSemanticsForSymbol ops [name]) kind name <;> rfl
  · intro document position includeDeclaration
    unfold AnalysisSnapshot.references
    cases htarget : snapshot.targetAt ops document position with
    | none => exact iff_of_true (reportsLive_nil fun _ h => h) trivial
    | some target =>
      cases target with
      | parameter owner hir definition =>
        exact parameter_reportsLive_iff (document_of_targetAt htarget)
      | symbol kind name => exact symbol_reportsLive_iff

end Searches

/-- A file with a scripted effect, and a file that refers to it on disk but no longer in its open
document. -/
def edited : AnalysisSnapshot Nat where
  roots := [⟨0, 0, 0⟩]
  sourceFiles := (Std.ExtTreeMap.empty.insert 1
    ⟨1, 0, 10, "common/scripted_effects/a.txt".toList, .merge⟩).insert 2
    ⟨2, 0, 11, "events/b.txt".toList, .merge⟩
  categories := []
  documents := Std.ExtTreeMap.empty.insert "file:///b".toList ⟨.overlay, some 11⟩
  index := .fromShards
    [⟨1, [⟨"scripted_effect".toList, "heal".toList, 1, .sized 0 12, .sized 0 4, true⟩],
        [], [], [], [], 0, true⟩,
      ⟨2, [], [⟨"scripted_effect".toList, "heal".toList, .sized 10 4⟩], [], [], [], 0, true⟩]
  referenceSources := []
  fileStates := ∅
  documentInput _ :=
    some { path := some "events/b.txt".toList, source := [], format := .script, hir := some {} }
  fileInput _ := none
  previewLanguage := "english".toList

/-- The search reports the text on disk. -/
theorem references_live_edited :
    ¬ edited.ReportsLive numbered
      (edited.OccursOf numbered false
        (some (.symbol "scripted_effect".toList "heal".toList)))
      (((edited.symbolReferences numbered "scripted_effect".toList "heal".toList
        false).map Prod.snd).getD []) := by
  intro h
  refine h.live ⟨none, some 2, some "events/b.txt".toList, ⟨10, 14, by decide⟩⟩
    (by decide +kernel) ?_
  exact ⟨rfl, 2, by decide +kernel, rfl⟩

/-- The document refers to the effect again, and so does a file that is not open. -/
def rewritten : AnalysisSnapshot Nat :=
  { edited with
    sourceFiles := edited.sourceFiles.insert 3 ⟨3, 0, 12, "events/c.txt".toList, .merge⟩
    index := .fromShards
      [⟨1, [⟨"scripted_effect".toList, "heal".toList, 1, .sized 0 12, .sized 0 4, true⟩],
          [], [], [], [], 0, true⟩,
        ⟨2, [], [], [], [], [], 0, true⟩,
        ⟨3, [], [⟨"scripted_effect".toList, "heal".toList, .sized 20 4⟩], [], [], [], 0, true⟩]
    documentInput := fun _ => some
      { path := some "events/b.txt".toList
        source := []
        format := .script
        hir := some { references := [⟨"scripted_effect".toList, "heal".toList, .sized 10 4⟩] } } }

/-- The search reports both references. -/
theorem references_live_iff_rewritten :
    rewritten.ReportsLive numbered
      (rewritten.OccursOf numbered false
        (some (.symbol "scripted_effect".toList "heal".toList)))
      (((rewritten.symbolReferences numbered "scripted_effect".toList
        "heal".toList false).map Prod.snd).getD []) := by
  refine ((references_live_iff numbered rewritten).1 _ _ false).mpr ?_
  have hfiles : rewritten.overlayFileIds numbered = {2} := by decide +kernel
  have hindex : ∀ entry ∈ rewritten.index.shards.toList, entry.2.references ≠ [] →
    entry.2.fileId = 3 := by
    decide +kernel
  intro target _
  refine ⟨?_, ?_, ?_, ?_⟩
  · intro entry hentry reference hreference _
    rw [hfiles, hindex entry hentry (List.ne_nil_of_mem hreference)]
    decide
  · intro rows hrows
    exact absurd hrows List.not_mem_nil
  · rintro reference ⟨⟨i, hstands⟩, hlive⟩
    refine .inr ⟨reference, ⟨⟨i, ?_⟩, hlive⟩, rfl⟩
    cases hstands with
    | template _ _ _ hinput _ _ => cases hinput
    | document hentry hdata hreference hof => exact .document hentry hdata hreference hof
    | index hshard hreference hof => exact .index hshard hreference hof
    | cache hrows hrow hof => exact .cache hrows hrow hof
  · intro i j k location other hij hjk hi hj hk _ _
    -- only two references are come across
    have hsub := (laidOut_collected ["heal".toList] "scripted_effect".toList "heal".toList target
      false).triple_iff.mpr ⟨i, j, k, hij, hjk, hi, hj, hk⟩
    have hfound : (rewritten.found (rewritten.allSemanticsForSymbol
        numbered ["heal".toList]) "scripted_effect".toList
          "heal".toList).length = 2 := by decide +kernel
    have hlength : 3 ≤ _ := hsub.length_le
    unfold AnalysisSnapshot.collected at hlength
    rw [if_neg Bool.false_ne_true, List.nil_append, List.length_map, hfound] at hlength
    exact absurd hlength (by decide)

end ParadoxCode.Ide
