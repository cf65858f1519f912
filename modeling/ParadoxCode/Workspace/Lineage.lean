import Mathlib.Data.Set.Insert
import ParadoxCode.Workspace.Outcome

/-!
# The lineage of the dynamic definitions

Entries of the query cache that are derived from dynamic definitions stay valid until an operation
advances the definitions lineage. A definition is visible if an open document declares it, or the
shard of a file that no open document overlays. Lowering the open documents again changes nothing
that is visible where their dynamic definitions do not depend on the symbols that are looked up
(`FactFree`). Then an operation that does not advance the lineage keeps what is visible unless it
turns the overlay of a declaring shard, or commits a document in the place of a declaring one
(`keeps_iff`).
-/

namespace ParadoxCode.Workspace

open Engine Engine.Store Format
open Hir (AnalysisCoverage)

section Visible

variable {platform : Platform} {Parsed : Type} (env : HostEnvironment platform Parsed)

/-- The dynamic definitions that an open document declares. -/
def declaredIn (document : Option (DocumentSnapshot platform Parsed)) : Set HirDefinition :=
  {definition | ∃ known hir, document = some known ∧ known.source = .overlay ∧
    known.hir = some hir ∧ definition ∈ hir.definitions ∧
    (env.dynamicDefinitionContext definition.kind).isSome = true}

/-- The dynamic definitions in the shard of a file. -/
def indexedIn (host : AnalysisHost platform Parsed) (fileId : Nat) : Set Definition :=
  {definition | ∃ shard, host.index.shards[fileId]? = some shard ∧ definition ∈ shard.definitions ∧
    (env.dynamicDefinitionContext definition.kind).isSome = true}

/-- A definition with its document or its file. -/
inductive VisibleDefinition where
  | document (id : Str) (definition : HirDefinition)
  | file (fileId : Nat) (definition : Definition)

/-- The visible dynamic definitions. -/
def visibleDefinitions (host : AnalysisHost platform Parsed) : Set VisibleDefinition :=
  {visible | match visible with
    | .document id definition => definition ∈ declaredIn env host.documents[id]?
    | .file fileId definition =>
      fileId ∉ host.overlaySourceFileIds ∧ definition ∈ indexedIn env host fileId}

variable {env} {host after : AnalysisHost platform Parsed}

/-- The documents declare the same and the files with dynamic definitions are overlaid as before. -/
theorem visibleDefinitions_eq_iff (hindex : after.index = host.index) :
    visibleDefinitions env after = visibleDefinitions env host ↔
      (∀ id : Str, declaredIn env after.documents[id]? = declaredIn env host.documents[id]?) ∧
        ∀ fileId : Nat, (fileId ∈ after.overlaySourceFileIds ↔ fileId ∈ host.overlaySourceFileIds) ∨
          indexedIn env host fileId = ∅ := by
  have hindexed : ∀ fileId, indexedIn env after fileId = indexedIn env host fileId := by
    intro fileId
    unfold indexedIn
    rw [hindex]
  constructor
  · intro heq
    refine ⟨fun id => ?_, fun fileId => ?_⟩
    · ext definition
      exact Set.ext_iff.mp heq (.document id definition)
    · by_cases hempty : indexedIn env host fileId = ∅
      · exact .inr hempty
      · left
        obtain ⟨definition, hdefinition⟩ := Set.nonempty_iff_ne_empty.mpr hempty
        have hiff : (fileId ∉ after.overlaySourceFileIds ∧
          definition ∈ indexedIn env after fileId) ↔
            (fileId ∉ host.overlaySourceFileIds ∧ definition ∈ indexedIn env host fileId) :=
          Set.ext_iff.mp heq (.file fileId definition)
        rw [hindexed, and_iff_left hdefinition, and_iff_left hdefinition] at hiff
        exact not_iff_not.mp hiff
  · rintro ⟨hdocuments, hfiles⟩
    ext visible
    cases visible with
    | document id definition => exact Set.ext_iff.mp (hdocuments id) definition
    | file fileId definition =>
      show (fileId ∉ after.overlaySourceFileIds ∧ definition ∈ indexedIn env after fileId) ↔
        (fileId ∉ host.overlaySourceFileIds ∧ definition ∈ indexedIn env host fileId)
      rw [hindexed]
      rcases hfiles fileId with hkept | hempty
      · rw [hkept]
      · rw [hempty]
        simp only [Set.mem_empty_iff_false, and_false]

/-! ## Lowering again -/

/-- The dynamic definitions of a tree. -/
def dynamicDefinitions (env : HostEnvironment platform Parsed) (hir : HirFile) :
    Set HirDefinition :=
  {definition | definition ∈ hir.definitions ∧
    (env.dynamicDefinitionContext definition.kind).isSome = true}

/-- A tree that a document has, or that lowering makes of it with some facts. -/
def TreeOf (frontend : Frontend platform Parsed) (document : DocumentSnapshot platform Parsed)
    (hir : HirFile) : Prop :=
  document.hir = some hir ∨ ∃ parser path parsed facts,
    frontend.parserForDocument document.id document.path = some (parser, some path) ∧
      document.parsed = some parsed ∧ hir = (frontend.lower parsed (some path) facts).1

/-- The dynamic definitions of a document do not depend on the symbols that are looked up: all its
trees have those that it declares, and none of them below a property whose dispatch reads
symbols. -/
structure FactFree (env : HostEnvironment platform Parsed)
    (document : DocumentSnapshot platform Parsed) :
    Prop where
  same : ∀ hir, TreeOf env.frontend document hir →
    dynamicDefinitions env hir = document.hir.elim ∅ (dynamicDefinitions env)
  unconditional : ∀ hir, TreeOf env.frontend document hir →
    ∀ definition ∈ dynamicDefinitions env hir, ∀ range ∈ hir.conditionalRanges,
      ¬ (range.start ≤ definition.range.start ∧ definition.range.stop ≤ range.stop)

variable {document : DocumentSnapshot platform Parsed}

theorem mem_declaredIn_some {definition : HirDefinition} :
    definition ∈ declaredIn env (some document) ↔
      document.source = .overlay ∧ definition ∈ document.hir.elim ∅ (dynamicDefinitions env) := by
  unfold declaredIn
  constructor
  · rintro ⟨_, hir, ⟨⟩, hoverlay, hhir, hdefinition⟩
    rw [hhir]
    exact ⟨hoverlay, hdefinition⟩
  · rintro ⟨hoverlay, hdefinition⟩
    cases hhir : document.hir with
    | none =>
      rw [hhir] at hdefinition
      cases hdefinition
    | some hir =>
      rw [hhir] at hdefinition
      exact ⟨document, hir, rfl, hoverlay, hhir, hdefinition⟩

/-- A document declares nothing where it is not open or has no dynamic definitions. -/
theorem declaredIn_eq_empty_iff {document : Option (DocumentSnapshot platform Parsed)} :
    declaredIn env document = ∅ ↔
      ∀ known, document = some known → known.source = .overlay →
      env.declaresDynamicDefinitions known = false := by
  rw [Set.eq_empty_iff_forall_notMem]
  cases document with
  | none => simp [declaredIn]
  | some known =>
    simp only [mem_declaredIn_some, Option.some.injEq, forall_eq', not_and]
    unfold HostEnvironment.declaresDynamicDefinitions
    rw [forall_comm]
    refine forall_congr' fun _ => ?_
    cases known.hir with
    | none => simp
    | some hir => simp [dynamicDefinitions]

/-- A document of the same text, with a tree that it has or that lowering makes of it. -/
structure Lowered (frontend : Frontend platform Parsed)
    (known document : DocumentSnapshot platform Parsed) :
    Prop where
  relowered : Relowered known document
  tree : ∀ hir, document.hir = some hir → TreeOf frontend known hir
  unlowered : document.hir = none → known.hir = none

theorem keptByLowering_lowered (frontend : Frontend platform Parsed) :
    KeptByLowering frontend (Lowered frontend) where
  refl document := ⟨.refl document, fun _ h => .inl h, id⟩
  source h := h.relowered.source
  covered h hoverlay := ⟨(keptByLowering_relowered frontend).covered h.relowered hoverlay,
    h.tree, h.unlowered⟩
  lowered {old new} h hoverlay facts reads := by
    have hrelowered := (keptByLowering_relowered frontend).lowered h.relowered hoverlay facts reads
    have htree : ∀ hir, (frontend.relowerDocumentSnapshot new facts).1.hir = some hir →
        TreeOf frontend old hir := by
      intro hir hhir
      unfold Frontend.relowerDocumentSnapshot at hhir
      split at hhir
      · next parser path parsed hparser hparsed =>
        rw [h.relowered.id, h.relowered.path] at hparser
        rw [h.relowered.parsed] at hparsed
        exact .inr ⟨parser, path, parsed, facts, hparser, hparsed, (Option.some.inj hhir).symm⟩
      · exact h.tree hir hhir
    refine ⟨hrelowered, htree, fun hnone => h.unlowered ?_⟩
    dsimp only at hnone
    unfold Frontend.relowerDocumentSnapshot at hnone
    split at hnone
    · cases hnone
    · exact hnone

/-- Lowering again keeps a document free of facts, and what it declares. -/
theorem FactFree.lowered {known : DocumentSnapshot platform Parsed} (hfree : FactFree env known)
    (h : Lowered env.frontend known document) :
    FactFree env document ∧ declaredIn env (some document) = declaredIn env (some known) := by
  have hsame : document.hir.elim ∅ (dynamicDefinitions env) =
    known.hir.elim ∅ (dynamicDefinitions env) := by
    cases hhir : document.hir with
    | none => rw [h.unlowered hhir]
    | some hir => exact hfree.same hir (h.tree hir hhir)
  have htree : ∀ hir, TreeOf env.frontend document hir → TreeOf env.frontend known hir := by
    rintro hir (hhir | ⟨parser, path, parsed, facts, hparser, hparsed, rfl⟩)
    · exact h.tree hir hhir
    · rw [h.relowered.id, h.relowered.path] at hparser
      rw [h.relowered.parsed] at hparsed
      exact .inr ⟨parser, path, parsed, facts, hparser, hparsed, rfl⟩
  refine ⟨⟨fun hir hhir => ?_, fun hir hhir => hfree.unconditional hir (htree hir hhir)⟩, ?_⟩
  · rw [hsame]
    exact hfree.same hir (htree hir hhir)
  · ext definition
    rw [mem_declaredIn_some, mem_declaredIn_some, hsame, h.relowered.source]

/-- What a failed discovery publishes keeps the definitions that no dispatch decides. -/
theorem dynamicDefinitions_discard {hir : HirFile}
    (h : ∀ definition ∈ dynamicDefinitions env hir, ∀ range ∈ hir.conditionalRanges,
      ¬ (range.start ≤ definition.range.start ∧ definition.range.stop ≤ range.stop)) :
    dynamicDefinitions env hir.discardConditionalBaseFacts = dynamicDefinitions env hir := by
  ext definition
  unfold dynamicDefinitions HirFile.discardConditionalBaseFacts HirFile.discardFactsInRanges
  simp only [Set.mem_ofPred_eq, List.mem_filter]
  refine ⟨fun hmem => ⟨hmem.1.1, hmem.2⟩, fun hmem => ⟨⟨hmem.1, ?_⟩, hmem.2⟩⟩
  rw [Bool.not_eq_true', List.any_eq_false]
  intro range hrange
  exact mt of_decide_eq_true (h definition hmem range hrange)

theorem FactFree.failed (hfree : FactFree env document) :
    FactFree env (failDocument document) ∧
      declaredIn env (some (failDocument document)) = declaredIn env (some document) := by
  unfold failDocument
  split_ifs with hoverlay
  · have hsame : (document.hir.map fun hir => { hir.discardConditionalBaseFacts with
        analysisCoverage := hir.discardConditionalBaseFacts.analysisCoverage.merge
          (AnalysisCoverage.limit {} .factStability) }).elim ∅ (dynamicDefinitions env) =
        document.hir.elim ∅ (dynamicDefinitions env) := by
      cases hhir : document.hir with
      | none => rfl
      | some hir => exact dynamicDefinitions_discard (hfree.unconditional hir (.inl hhir))
    refine ⟨⟨?_, ?_⟩, ?_⟩
    · rintro hir (hhir | hhir)
      · dsimp only at hhir ⊢
        rw [hhir]
        rfl
      · exact (hfree.same hir (.inr hhir)).trans hsame.symm
    · rintro hir (hhir | hhir)
      · obtain ⟨known, hknown, rfl⟩ := Option.map_eq_some_iff.mp hhir
        have hkept := hfree.unconditional known (.inl hknown)
        intro definition hdefinition
        refine hkept definition ?_
        rw [← dynamicDefinitions_discard hkept]
        exact hdefinition
      · exact hfree.unconditional hir (.inr hhir)
    · ext definition
      rw [mem_declaredIn_some, mem_declaredIn_some]
      dsimp only
      rw [hsame]
  · exact ⟨hfree, rfl⟩

/-- The open documents are free of facts. -/
def AllFactFree (env : HostEnvironment platform Parsed)
    (documents : Documents platform Parsed) : Prop :=
  ∀ (id : Str) document, documents[id]? = some document → document.source = .overlay →
    FactFree env document

/-- Lowering changes nothing that a document declares. -/
theorem declaredIn_lowered {known : DocumentSnapshot platform Parsed}
    (hfree : known.source = .overlay → FactFree env known)
    (h : Lowered env.frontend known document) :
    (document.source = .overlay → FactFree env document) ∧
      declaredIn env (some document) = declaredIn env (some known) := by
  cases hsource : known.source with
  | disk =>
    rw [h.relowered.disk hsource]
    exact ⟨hfree, rfl⟩
  | overlay => exact ⟨fun _ => ((hfree hsource).lowered h).1, ((hfree hsource).lowered h).2⟩

theorem declaredIn_failDocument (hfree : document.source = .overlay → FactFree env document) :
    ((failDocument document).source = .overlay → FactFree env (failDocument document)) ∧
      declaredIn env (some (failDocument document)) = declaredIn env (some document) := by
  cases hsource : document.source with
  | disk =>
    have hkept : failDocument document = document := by
      unfold failDocument
      rw [if_neg]
      rw [hsource]
      exact fun heq => by cases heq
    rw [hkept]
    exact ⟨hfree, rfl⟩
  | overlay => exact ⟨fun _ => (hfree hsource).failed.1, (hfree hsource).failed.2⟩

/-- Documents that are free of facts declare the same when they are lowered again. -/
theorem AllFactFree.withDocuments {documents : Documents platform Parsed}
    (hfree : AllFactFree env documents) (host : AnalysisHost platform Parsed) (relower : Bool) :
    AllFactFree env (env.withDocuments host documents relower).documents ∧
      ∀ id : Str, declaredIn env (env.withDocuments host documents relower).documents[id]? =
        declaredIn env documents[id]? := by
  have hlinked : ∀ {found : Documents platform Parsed},
    Linked (Lowered env.frontend) documents found →
      AllFactFree env found ∧ ∀ id : Str, declaredIn env found[id]? =
        declaredIn env documents[id]? := by
    intro found hfound
    refine ⟨fun id document hdocument => ?_, fun id => ?_⟩
    · obtain ⟨known, hknown, hlowered⟩ := hfound.known hdocument
      exact (declaredIn_lowered (hfree id known hknown) hlowered).1
    · have hrel := hfound id
      cases hnew : found[id]? with
      | none =>
        rw [hnew] at hrel
        cases hknown : documents[id]? with
        | none => rfl
        | some known =>
          rw [hknown] at hrel
          cases hrel
      | some document =>
        obtain ⟨known, hknown, hlowered⟩ := hfound.known hnew
        rw [hknown]
        exact (declaredIn_lowered (hfree id known hknown) hlowered).2
  unfold HostEnvironment.withDocuments HostEnvironment.relowered
  dsimp only
  split_ifs
  · exact ⟨hfree, fun _ => rfl⟩
  · obtain ⟨found, hfound, heq | heq⟩ := linked_stabilizeOverlayFacts
      (keptByLowering_lowered env.frontend) documents host.index
      (overlayFilesOf documents host.sourceFiles) {}
    · rw [heq]
      exact hlinked hfound
    · obtain ⟨hall, hdeclared⟩ := hlinked hfound
      rw [heq]
      refine ⟨fun id document hdocument => ?_, fun id => ?_⟩
      · rw [Std.ExtTreeMap.getElem?_map] at hdocument
        obtain ⟨known, hknown, rfl⟩ := Option.map_eq_some_iff.mp hdocument
        exact (declaredIn_failDocument (hall id known hknown)).1
      · rw [Std.ExtTreeMap.getElem?_map, ← hdeclared id]
        cases hknown : found[id]? with
        | none => rfl
        | some known => exact (declaredIn_failDocument (hall id known hknown)).2
  · exact ⟨hfree, fun _ => rfl⟩

/-! ## Steps -/

namespace DocumentOperation

/-- A refused operation changes nothing. -/
def step (env : HostEnvironment platform Parsed) (host : AnalysisHost platform Parsed)
    (operation : DocumentOperation platform Parsed) : AnalysisHost platform Parsed × Bool :=
  (operation.run env host).getD (host, false)

/-- A document is open. -/
def IsOpen (host : AnalysisHost platform Parsed) (id : Str) : Prop :=
  ∃ current, host.documents[id]? = some current ∧ current.source = .overlay

/-- The operation fits the open documents: an open is of a document that is not open, a close of one
that is, and a commit of the current text. -/
def Fits (host : AnalysisHost platform Parsed) : DocumentOperation platform Parsed → Prop
  | .openDocument id .. | .stageOpenDocument id .. => ¬ IsOpen host id
  | .closeDocument id _ => IsOpen host id
  | .commitPreparedDocument prepared => ∃ current, host.documents[prepared.document.id]? =
      some current ∧ current.source = .overlay ∧ current.version = prepared.document.version ∧
        current.text = prepared.document.text ∧ current.path = prepared.document.path
  | _ => True

/-- An operation that announces nothing keeps what is visible: no commit replaces a document that
declares dynamic definitions, and a file whose overlay is turned on or off has none in its shard or
is open in another document. -/
structure Keeps (env : HostEnvironment platform Parsed) (host : AnalysisHost platform Parsed)
    (operation : DocumentOperation platform Parsed) : Prop where
  committed : ∀ prepared, operation = .commitPreparedDocument prepared →
    declaredIn env host.documents[prepared.document.id]? = ∅
  turned : ∀ fileId, operation.touched host = some fileId →
    OpenElsewhere host operation.document fileId ∨ indexedIn env host fileId = ∅

variable {operation : DocumentOperation platform Parsed}

/-- A refused operation that fits the documents turns no overlay and is no commit. -/
theorem keeps_of_refused (h : operation.run env host = none)
    (hfits : operation.Fits host) : operation.Keeps env host := by
  have hopen : ∀ {id : Str}, ¬ IsOpen host id →
      ¬ (host.documents[id]?.any fun document => decide (document.source = .overlay)) = true := by
    intro id hclosed hany
    obtain ⟨current, hcurrent, hoverlay⟩ := (Option.any_eq_true_iff_get ..).mp hany |>
      fun ⟨hsome, hsource⟩ =>
      (⟨_, (Option.some_get hsome).symm, of_decide_eq_true hsource⟩ : IsOpen host id)
    exact hclosed ⟨current, hcurrent, hoverlay⟩
  cases operation with
  | openDocument id version text path =>
    simp only [DocumentOperation.run, HostEnvironment.openDocument] at h
    rw [if_neg (hopen hfits)] at h
    cases h
  | stageOpenDocument id version text path =>
    simp only [DocumentOperation.run, HostEnvironment.stageOpenDocument] at h
    rw [if_neg (hopen hfits)] at h
    cases h
  | commitPreparedDocument prepared =>
    obtain ⟨current, hcurrent, hmatches⟩ := hfits
    simp only [DocumentOperation.run, HostEnvironment.commitPreparedDocument, hcurrent] at h
    rw [if_pos hmatches] at h
    cases h
  | closeDocument id onDisk =>
    obtain ⟨current, hcurrent, hoverlay⟩ := hfits
    simp only [DocumentOperation.run, HostEnvironment.closeDocument, hcurrent] at h
    rw [if_neg (not_not.mpr hoverlay)] at h
    cases h
  | stageDocumentText id version text =>
    exact ⟨fun prepared heq => (by cases heq), fun fileId heq => (by cases heq)⟩
  | applyDocumentChanges id version changes =>
    exact ⟨fun prepared heq => (by cases heq), fun fileId heq => (by cases heq)⟩
  | openDiskDocument id path onDisk =>
    exact ⟨fun prepared heq => (by cases heq), fun fileId heq => (by cases heq)⟩

variable {result : AnalysisHost platform Parsed × Bool}

theorem fits_of_run (h : operation.run env host = some result) : operation.Fits host := by
  have hopen : ∀ {id : Str}, ¬ (host.documents[id]?.any fun document =>
      decide (document.source = .overlay)) = true → ¬ IsOpen host id := by
    rintro id hclosed ⟨current, hcurrent, hoverlay⟩
    rw [hcurrent] at hclosed
    exact hclosed (decide_eq_true hoverlay)
  cases operation with
  | openDocument id version text path =>
    simp only [DocumentOperation.run, HostEnvironment.openDocument] at h
    split_ifs at h with hany
    · cases h
    · exact hopen hany
  | stageOpenDocument id version text path =>
    simp only [DocumentOperation.run, HostEnvironment.stageOpenDocument] at h
    split_ifs at h with hany
    · cases h
    · exact hopen hany
  | commitPreparedDocument prepared =>
    simp only [DocumentOperation.run, HostEnvironment.commitPreparedDocument] at h
    split at h
    · cases h
    next current hcurrent =>
      split_ifs at h with hmatches
      exact ⟨current, hcurrent, hmatches⟩
  | closeDocument id onDisk =>
    simp only [DocumentOperation.run, HostEnvironment.closeDocument] at h
    split at h
    · cases h
    next current hcurrent =>
      split_ifs at h with hoverlay
      · cases h
      · exact ⟨current, hcurrent, not_not.mp hoverlay⟩
  | stageDocumentText => trivial
  | applyDocumentChanges => trivial
  | openDiskDocument => trivial

/-- The document that an operation replaces declares nothing if the operation announces nothing,
unless it is a commit. -/
theorem declaredIn_replaced (h : operation.run env host = some result)
    (hquiet : operation.announces env host = false)
    (hcommit : ∀ prepared, operation ≠ .commitPreparedDocument prepared) :
    declaredIn env host.documents[operation.document]? = ∅ := by
  have hclosed : ∀ {id : Str}, ¬ IsOpen host id → declaredIn env host.documents[id]? = ∅ :=
    fun hnot => declaredIn_eq_empty_iff.mpr fun known hknown hoverlay =>
      absurd ⟨known, hknown, hoverlay⟩ hnot
  have hwithdrawn : ∀ {id : Str}, operation.withdrawn host = host.documents[id]? →
      declaredIn env host.documents[id]? = ∅ := by
    intro id heq
    refine declaredIn_eq_empty_iff.mpr fun known hknown _ => ?_
    have hnone := (Bool.or_eq_false_iff.mp hquiet).1
    rw [heq, hknown] at hnone
    exact hnone
  cases operation with
  | openDocument => exact hclosed (fits_of_run h)
  | stageOpenDocument => exact hclosed (fits_of_run h)
  | stageDocumentText => exact hwithdrawn rfl
  | commitPreparedDocument prepared => exact absurd rfl (hcommit prepared)
  | applyDocumentChanges => exact hwithdrawn rfl
  | closeDocument => exact hwithdrawn rfl
  | openDiskDocument id path onDisk =>
    simp only [DocumentOperation.run, HostEnvironment.openDiskDocument] at h
    split_ifs at h with hknown
    refine declaredIn_eq_empty_iff.mpr fun known hsome => ?_
    show _ → _
    have hsome : host.documents[id]? = some known := hsome
    rw [Std.ExtTreeMap.getElem?_eq_none_of_contains_eq_false
      (Bool.eq_false_iff.mpr fun hcontains => hknown (.inl hcontains))] at hsome
    cases hsome

/-- The documents behind an operation are free of facts and declare what those in place did. -/
theorem declaredIn_of_runs (h : operation.Runs env host result)
    (hfree : AllFactFree env host.documents)
    (hplaced : ∀ document, operation.placed env host = some document → document.source = .overlay →
      FactFree env document) :
    AllFactFree env result.1.documents ∧ ∀ id : Str, declaredIn env result.1.documents[id]? =
      declaredIn env (if operation.document = id then operation.placed env host else
        host.documents[id]?) := by
  obtain ⟨documents, relower, hdocuments, rfl⟩ := h.result
  have hall : AllFactFree env documents := by
    intro id document hdocument
    rw [hdocuments] at hdocument
    split_ifs at hdocument
    · exact hplaced document hdocument
    · exact hfree id document hdocument
  obtain ⟨hafter, hdeclared⟩ := hall.withDocuments host relower
  have hkept : ∀ (made : AnalysisHost platform Parsed) (refreshed : Option Nat) (declares : Bool),
      ((HostEnvironment.refreshFile made refreshed).finish declares).1.documents =
        made.documents := by
    intro made refreshed declares
    cases refreshed <;> cases declares <;> rfl
  rw [hkept]
  refine ⟨hafter, fun id => ?_⟩
  rw [hdeclared, hdocuments]

/-- What is visible is kept exactly if the operation announces a definition or meets its
condition. -/
theorem keeps_iff (hfree : AllFactFree env host.documents)
    (hplaced : ∀ document, operation.placed env host = some document → document.source = .overlay →
      FactFree env document) :
    (operation.announces env host = true ∨ (operation.Fits host → operation.Keeps env host)) ↔
      ((operation.step env host).2 = false →
        visibleDefinitions env (operation.step env host).1 = visibleDefinitions env host) := by
  unfold step
  cases hrun : operation.run env host with
  | none => exact iff_of_true (.inr (keeps_of_refused hrun)) fun _ => rfl
  | some result =>
    have hruns := run_spec hrun
    have houtcome := hruns.outcome
    have hadvanced : result.2 = operation.announces env host := by
      obtain ⟨documents, relower, -, rfl⟩ := hruns.result
      rfl
    rw [Option.getD_some, hadvanced]
    cases hquiet : operation.announces env host with
    | true => simp
    | false =>
      have hnone : declaredIn env (operation.placed env host) = ∅ := by
        refine declaredIn_eq_empty_iff.mpr fun document hdocument _ => ?_
        have hplacedQuiet := (Bool.or_eq_false_iff.mp hquiet).2
        rw [hdocument] at hplacedQuiet
        exact hplacedQuiet
      have hdocuments : (∀ id : Str, declaredIn env result.1.documents[id]? =
        declaredIn env host.documents[id]?) ↔
          declaredIn env host.documents[operation.document]? = ∅ := by
        simp only [(declaredIn_of_runs hruns hfree hplaced).2]
        constructor
        · intro h
          have hid := h operation.document
          rw [if_pos rfl, hnone] at hid
          exact hid.symm
        · intro h id
          split_ifs with heq
          · rw [← heq, h, hnone]
          · rfl
      have hfiles : (∀ fileId : Nat,
            (fileId ∈ result.1.overlaySourceFileIds ↔ fileId ∈ host.overlaySourceFileIds) ∨
              indexedIn env host fileId = ∅) ↔
          ∀ fileId, operation.touched host = some fileId →
            OpenElsewhere host operation.document fileId ∨ indexedIn env host fileId = ∅ := by
        refine forall_congr' fun fileId => ?_
        rw [houtcome.kept_iff hruns.turns]
        tauto
      rw [visibleDefinitions_eq_iff houtcome.index, hdocuments, hfiles]
      simp only [Bool.false_eq_true, false_or, forall_const]
      constructor
      · intro hkeeps
        have hkept := hkeeps (fits_of_run hrun)
        refine ⟨?_, hkept.turned⟩
        by_cases hcommit : ∃ prepared, operation = .commitPreparedDocument prepared
        · obtain ⟨prepared, rfl⟩ := hcommit
          exact hkept.committed prepared rfl
        · exact declaredIn_replaced hrun hquiet fun prepared heq => hcommit ⟨prepared, heq⟩
      · rintro ⟨hreplaced, hturned⟩ _
        refine ⟨?_, hturned⟩
        rintro prepared rfl
        exact hreplaced

theorem allFactFree_step (hfree : AllFactFree env host.documents)
    (hplaced : ∀ document, operation.placed env host = some document → document.source = .overlay →
      FactFree env document) : AllFactFree env (operation.step env host).1.documents := by
  unfold step
  cases hrun : operation.run env host with
  | none => exact hfree
  | some result => exact (declaredIn_of_runs (run_spec hrun) hfree hplaced).1

/-- The host behind a run. -/
def runAll (env : HostEnvironment platform Parsed) (host : AnalysisHost platform Parsed)
    (operations : List (DocumentOperation platform Parsed)) : AnalysisHost platform Parsed :=
  operations.foldl (fun host operation => (operation.step env host).1) host

/-- No operation of a run advances the lineage. -/
def SharesLineage (env : HostEnvironment platform Parsed) :
    AnalysisHost platform Parsed → List (DocumentOperation platform Parsed) → Prop
  | _, [] => True
  | host, operation :: operations =>
    (operation.step env host).2 = false ∧ SharesLineage env (operation.step env host).1 operations

/-- Any two revisions of a run that share a lineage have the same visible definitions. -/
def NeverStale (env : HostEnvironment platform Parsed) (host : AnalysisHost platform Parsed)
    (operations : List (DocumentOperation platform Parsed)) : Prop :=
  ∀ front middle back, operations = front ++ middle ++ back →
    SharesLineage env (runAll env host front) middle →
      visibleDefinitions env (runAll env host (front ++ middle)) =
        visibleDefinitions env (runAll env host front)

/-- Every document that an open, a change or a commit puts in place is free of facts. -/
def PlacesFactFree (env : HostEnvironment platform Parsed) :
    AnalysisHost platform Parsed → List (DocumentOperation platform Parsed) → Prop
  | _, [] => True
  | host, operation :: operations =>
    (∀ document, operation.placed env host = some document → document.source = .overlay →
      FactFree env document) ∧ PlacesFactFree env (operation.step env host).1 operations

/-- Every operation of a run announces a definition or meets its condition. -/
def KeepsAll (env : HostEnvironment platform Parsed) :
    AnalysisHost platform Parsed → List (DocumentOperation platform Parsed) → Prop
  | _, [] => True
  | host, operation :: operations =>
    (operation.announces env host = true ∨ (operation.Fits host → operation.Keeps env host)) ∧
      KeepsAll env (operation.step env host).1 operations

theorem visible_of_sharesLineage {operations : List (DocumentOperation platform Parsed)} :
    ∀ {host : AnalysisHost platform Parsed} {back : List (DocumentOperation platform Parsed)},
      AllFactFree env host.documents → PlacesFactFree env host (operations ++ back) →
        KeepsAll env host (operations ++ back) → SharesLineage env host operations →
          visibleDefinitions env (runAll env host operations) = visibleDefinitions env host := by
  induction operations with
  | nil => intro host back _ _ _ _; rfl
  | cons operation operations ih =>
    rintro host back hfree ⟨hplaced, hplaces⟩ ⟨hkeeps, hrest⟩ ⟨hquiet, hshares⟩
    calc visibleDefinitions env (runAll env host (operation :: operations))
        = visibleDefinitions env (operation.step env host).1 :=
          ih (allFactFree_step hfree hplaced) hplaces hrest hshares
      _ = visibleDefinitions env host := (keeps_iff hfree hplaced).mp hkeeps hquiet

/-- The conditions of a run, behind its first operations. -/
theorem keepsAll_append {front back : List (DocumentOperation platform Parsed)} :
    ∀ {host : AnalysisHost platform Parsed}, AllFactFree env host.documents →
      PlacesFactFree env host (front ++ back) → KeepsAll env host (front ++ back) →
        AllFactFree env (runAll env host front).documents ∧
          PlacesFactFree env (runAll env host front) back ∧
          KeepsAll env (runAll env host front) back := by
  induction front with
  | nil => exact fun hfree hplaces hkeeps => ⟨hfree, hplaces, hkeeps⟩
  | cons operation front ih =>
    exact fun hfree hplaces hkeeps => ih (allFactFree_step hfree hplaces.1) hplaces.2 hkeeps.2

end DocumentOperation

end Visible

/-! ## A file that is staged -/

/-- A shard with one scripted effect. -/
def effectShard : FileIndexShard :=
  { FileIndexShard.empty 1 with
    definitions := [⟨"scripted_effect".toList, "reward".toList, 1, ⟨0, 6, by decide⟩,
      ⟨0, 6, by decide⟩, true⟩] }

/-- The scanned file of the shard. -/
def effectFile : SourceFile .unix :=
  ⟨1, 0, [47], "common/scripted_effects/a.txt".toList, none, .merge⟩

/-- The tree of a text with the effect. -/
def effectTree : HirFile where
  source := []
  definitions := [⟨"scripted_effect".toList, "reward".toList, .sized 0 6, .sized 0 6⟩]
  dynamicTemplates := []
  definitionAttributes := []
  conditionalRanges := []
  symbolFactsDependency := false
  analysisCoverage := {}

def effectEnvironment : HostEnvironment .unix Unit where
  frontend := ⟨fun _ _ => some (.script, some []), fun _ _ => (), fun _ _ _ => (effectTree, ∅)⟩
  irFilesEmpty := false
  dynamicDefinitionContext _ := some []
  buildFileState _ source revision := ⟨source, revision, effectShard, none⟩
  emptyFileState _ revision := ⟨[], revision, effectShard, none⟩
  isRetained _ := true

/-- A host that has scanned the file. -/
def effectHost : AnalysisHost .unix Unit :=
  { AnalysisHost.empty with
    sourceFiles := (∅ : SourceFiles .unix).insert 1 effectFile
    sourceFilePaths := sourceFilePathsOf ((∅ : SourceFiles .unix).insert 1 effectFile)
    fileStates := (∅ : FileStates).insert 1 ⟨[], 0, effectShard, none⟩
    index := WorkspaceIndex.fromShards [effectShard] }

namespace DocumentOperation

/-- A document with the tree of the effect, or without one, is free of facts. -/
theorem factFree_effect {document : DocumentSnapshot .unix Unit}
    (htree : ∀ hir, document.hir = some hir → hir = effectTree)
    (hparsed : document.hir = none → document.parsed = none) :
    FactFree effectEnvironment document := by
  have hall : ∀ hir, TreeOf effectEnvironment.frontend document hir → hir = effectTree ∧
    document.hir = some hir := by
    rintro hir (hhir | ⟨parser, path, parsed, facts, -, hknown, rfl⟩)
    · exact ⟨htree hir hhir, hhir⟩
    · refine ⟨rfl, ?_⟩
      cases hhir : document.hir with
      | none =>
        rw [hparsed hhir] at hknown
        cases hknown
      | some hir => exact congrArg some (htree hir hhir)
  refine ⟨fun hir hhir => ?_, fun hir hhir definition _ range hrange => ?_⟩
  · rw [(hall hir hhir).2]
    rfl
  · rw [(hall hir hhir).1] at hrange
    cases hrange

theorem getElem?_effectHost (id : Str) : effectHost.documents[id]? = none :=
  Std.ExtTreeMap.getElem?_empty

theorem allFactFree_effectHost : AllFactFree effectEnvironment effectHost.documents := by
  intro id document hdocument
  rw [getElem?_effectHost] at hdocument
  cases hdocument

/-- The file is opened for editing. -/
def openEffect : DocumentOperation .unix Unit := .openDocument ['a'] 1 [] (some [47])

/-- It is opened in another document, which is not parsed. -/
def stageEffect : DocumentOperation .unix Unit := .stageOpenDocument ['b'] 1 [] (some [47])

theorem factFree_openEffect : ∀ document, openEffect.placed effectEnvironment effectHost =
    some document → document.source = .overlay → FactFree effectEnvironment document := by
  intro document hdocument _
  obtain rfl := Option.some.inj hdocument
  exact factFree_effect (fun hir hhir => (Option.some.inj hhir).symm) fun hnone => by cases hnone

theorem factFree_stageEffect {host : AnalysisHost .unix Unit} : ∀ document,
    stageEffect.placed effectEnvironment host = some document →
      document.source = .overlay → FactFree effectEnvironment document := by
  intro document hdocument _
  obtain rfl := Option.some.inj hdocument
  exact factFree_effect (fun hir hhir => by cases hhir) fun _ => rfl

end DocumentOperation

end ParadoxCode.Workspace
