import ParadoxCode.Hir.Analysis
import ParadoxCode.Workspace.Index

/-!
# Overlay facts

The documents of the host and `overlay_facts.rs`: open documents whose lowering reads symbols are
lowered again, round after round, until the facts they declare no longer change. Parsing and
lowering themselves are parameters. Nothing is cancelled.
-/

namespace ParadoxCode.Workspace

open Engine Engine.Store Format
open Hir (AnalysisCoverage)
open Rules (ParserKind)
open ParadoxCode.Parser (FileFormat)

/-! ## Documents -/

structure HirDefinition where
  kind : Str
  name : Str
  range : TextRange
  selectionRange : TextRange
  deriving DecidableEq

/-- `HirFile`, as far as it declares facts. -/
structure HirFile where
  source : Str
  definitions : List HirDefinition
  dynamicTemplates : List (Template TextRange)
  definitionAttributes : List DefinitionAttributes
  /-- The properties whose dispatch reads symbols, as `discard_conditional_base_facts` finds them. -/
  conditionalRanges : List TextRange
  symbolFactsDependency : Bool
  analysisCoverage : AnalysisCoverage

/-- A lookup of a symbol; one without a name reads all of its kind. -/
structure SymbolDependency where
  kind : Str
  name : Option Str
  deriving DecidableEq

inductive DocumentSource where
  | disk
  | overlay
  deriving DecidableEq

structure DocumentSnapshot (platform : Platform) (Parsed : Type) where
  id : Str
  version : Option Int
  text : Str
  source : DocumentSource
  path : Option platform.Path
  parsed : Option Parsed
  hir : Option HirFile
  factDependencies : Finset SymbolDependency
  factCoverage : AnalysisCoverage

/-- The documents by identity. -/
abbrev Documents (platform : Platform) (Parsed : Type) : Type :=
  Std.ExtTreeMap Str (DocumentSnapshot platform Parsed)

/-- `IndexSymbolFacts::with_overlay_files`. -/
structure IndexSymbolFacts where
  index : WorkspaceIndex
  overlays : List HirFile
  excludedFileIds : Finset Nat

/-- What is taken of the parser and of the lowering: the parser of a document with its logical path,
and what the lowering makes of a syntax tree, with the lookups it has made. -/
structure Frontend (platform : Platform) (Parsed : Type) where
  parserForDocument : Str → Option platform.Path → Option (ParserKind × Option Str)
  parse : FileFormat → Str → Parsed
  lower : Parsed → Option Str → Option IndexSymbolFacts → HirFile × Finset SymbolDependency

/-- `unparsed_document`. -/
def unparsedDocument {platform : Platform} {Parsed : Type} (id : Str)
    (version : Option Int) (text : Str)
    (source : DocumentSource) (path : Option platform.Path) : DocumentSnapshot platform Parsed :=
  ⟨id, version, text, source, path, none, none, ∅, {}⟩

/-- `staged_overlay_document`. -/
def stagedOverlayDocument {platform : Platform} {Parsed : Type} (id : Str)
    (version : Int) (text : Str) (path : Option platform.Path) : DocumentSnapshot platform Parsed :=
  unparsedDocument id (some version) text .overlay path

/-! ## Facts -/

/-- `same_facts`. -/
def sameFacts (a b : HirFile) : Bool :=
  a.definitions == b.definitions &&
    (a.dynamicTemplates.length == b.dynamicTemplates.length &&
      (a.dynamicTemplates.zip b.dynamicTemplates).all fun p => templateBeq (some p.1) (some p.2)) &&
    a.definitionAttributes == b.definitionAttributes

/-- A symbol that is looked up by its name unless the name has a parameter. -/
def dependencyOn (kind name : Str) : SymbolDependency :=
  ⟨toAsciiLowercase kind, if '$' ∈ name then none else some (toAsciiLowercase name)⟩

/-- `changes`. -/
def changes (a b : HirFile) : List SymbolDependency :=
  [a, b].flatMap fun hir =>
    (hir.definitions.map fun definition => dependencyOn definition.kind definition.name) ++
      hir.definitionAttributes.map fun attributes => dependencyOn attributes.kind attributes.name

/-- `HirFile::discard_facts_in_ranges`. -/
def HirFile.discardFactsInRanges (hir : HirFile) (ranges : List TextRange) : HirFile :=
  let inside := fun range : TextRange =>
    ranges.any fun parent => decide (parent.start ≤ range.start ∧ range.stop ≤ parent.stop)
  { hir with
    definitions := hir.definitions.filter fun definition => !inside definition.range
    definitionAttributes := hir.definitionAttributes.filter fun attributes =>
      !inside attributes.definitionRange
    dynamicTemplates := hir.dynamicTemplates.filter fun template =>
      !inside template.definitionRange }

/-- `discard_conditional_base_facts`. -/
def HirFile.discardConditionalBaseFacts (hir : HirFile) : HirFile :=
  hir.discardFactsInRanges hir.conditionalRanges

section Rounds

variable {platform : Platform} {Parsed : Type}

/-- `state`: the trees of the open documents. -/
def treesOf (documents : Documents platform Parsed) : Std.ExtTreeMap Str HirFile :=
  documents.filterMap fun _ document => if document.source = .overlay then document.hir else none

/-- `repeated`; trees that are one have the same facts. -/
def repeated (a b : Std.ExtTreeMap Str HirFile) : Bool :=
  a.size == b.size && a.toList.all fun entry => b[entry.1]?.any fun other => sameFacts entry.2 other

/-- Whether a lookup can see one of the changed symbols. -/
def SymbolDependency.sees (changed : List SymbolDependency) (read : SymbolDependency) : Bool :=
  match read.name with
  | none => changed.any fun dependency => dependency.kind == read.kind
  | some _ =>
    changed.any (fun dependency => dependency.name.isNone && dependency.kind == read.kind) ||
      changed.contains read

/-- `readers`. -/
def readers (documents : Documents platform Parsed) (changed : List SymbolDependency) : List Str :=
  (documents.toList.filter fun entry => decide (entry.2.source = .overlay ∧
    ∃ read ∈ entry.2.factDependencies, read.sees changed = true)).map Prod.fst

/-- The trees of the open documents in the order of the documents. -/
def overlayTrees (documents : Documents platform Parsed) : List HirFile :=
  documents.toList.filterMap fun entry => if entry.2.source = .overlay then entry.2.hir else none

variable (frontend : Frontend platform Parsed)

/-- `parse_source_with_cache`, without a cache. -/
def Frontend.parseSource (parser : ParserKind) (text : Str) (logicalPath : Option Str)
    (facts : Option IndexSymbolFacts) : Option Parsed × Option HirFile :=
  let lowered := fun format : FileFormat =>
    let parsed := frontend.parse format text
    (some parsed, some (frontend.lower parsed logicalPath facts).1)
  match parser with
  | .script => lowered .script
  | .localisation => lowered .localisation
  | .asset | .syntaxOnly => (none, none)

/-- `prepare_document_snapshot_impl`. -/
def Frontend.prepareDocumentSnapshot (facts : Option IndexSymbolFacts)
    (document : DocumentSnapshot platform Parsed) : DocumentSnapshot platform Parsed :=
  let made := match frontend.parserForDocument document.id document.path with
    | some (parser, logicalPath) => frontend.parseSource parser document.text logicalPath facts
    | none => (none, none)
  { document with parsed := made.1, hir := made.2 }

/-- `relower_document_snapshot`, with the lookups. -/
def Frontend.relowerDocumentSnapshot (document : DocumentSnapshot platform Parsed)
    (facts : Option IndexSymbolFacts) : DocumentSnapshot platform Parsed × Finset
      SymbolDependency :=
  match frontend.parserForDocument document.id document.path, document.parsed with
  | some (_, some path), some parsed =>
    let lowered := frontend.lower parsed (some path) facts
    ({ document with hir := some lowered.1 }, lowered.2)
  | _, _ => (document, ∅)

/-- `OverlayFactBudget`, with its defaults. -/
structure OverlayFactBudget where
  rounds : Nat := 4096
  lowers : Nat := 100000
  historyBytes : Nat := 128 * 1024 * 1024

/-- The first pass: the base declarations and the documents to lower with facts. -/
structure Base (platform : Platform) (Parsed : Type) where
  documents : Documents platform Parsed
  pending : List Str
  lowers : Nat
  failed : Bool

/-- The first pass over one document. -/
def Frontend.lowerBase (budget : OverlayFactBudget) (base : Base platform Parsed)
    (entry : Str × DocumentSnapshot platform Parsed) : Base platform Parsed :=
  if base.failed = true ∨ entry.2.source ≠ .overlay then base
  else
    let document := { entry.2 with factCoverage := {} }
    if (document.hir.any fun hir => hir.symbolFactsDependency) = false then
      { base with documents := base.documents.insert entry.1 document }
    else if budget.lowers ≤ base.lowers then
      { base with documents := base.documents.insert entry.1 document, failed := true }
    else
      let document :=
        { (frontend.relowerDocumentSnapshot document none).1 with factDependencies := ∅ }
      ⟨base.documents.insert entry.1 document, base.pending ++ [entry.1], base.lowers + 1, false⟩

/-- The documents that a round lowers, all with the facts before the round. -/
def Frontend.batch (index : WorkspaceIndex) (excluded : Finset Nat)
    (candidate : Documents platform Parsed)
    (pending : List Str) : List (Str × DocumentSnapshot platform Parsed) :=
  let facts : IndexSymbolFacts := ⟨index, overlayTrees candidate, excluded⟩
  pending.filterMap fun id => candidate[id]?.map fun document =>
    let lowered := frontend.relowerDocumentSnapshot document (some facts)
    (id, { lowered.1 with factDependencies := lowered.2 })

/-- The candidate with one document of a batch, the symbols that have changed and the bytes
spent. -/
def takeNext (state : Documents platform Parsed × List SymbolDependency × Nat)
    (entry : Str × DocumentSnapshot platform Parsed) :
    Documents platform Parsed × List SymbolDependency × Nat :=
  let (candidate, changed, historyBytes) := state
  let after := candidate.insert entry.1 entry.2
  match candidate[entry.1]?.bind DocumentSnapshot.hir, entry.2.hir with
  | some old, some new =>
    if sameFacts old new = true then (after, changed, historyBytes)
    else (after, changed ++ changes old new, historyBytes + byteLen new.source * 16)
  | _, _ => (after, changed, historyBytes)

/-- The rounds; `none` where they fail. -/
def Frontend.discover (index : WorkspaceIndex) (excluded : Finset Nat)
    (budget : OverlayFactBudget) :
    Nat → Nat → Documents platform Parsed → List Str → List (Std.ExtTreeMap Str HirFile) → Nat →
      Option (Documents platform Parsed)
  | rounds, lowers, candidate, pending, history, historyBytes =>
    if pending = [] then some candidate
    else
      match rounds with
      | 0 => none
      | rounds + 1 =>
        if budget.lowers < lowers + pending.length ∨ budget.historyBytes < historyBytes then none
        else
          let batch := frontend.batch index excluded candidate pending
          let (candidate, changed, historyBytes) :=
            batch.foldl takeNext (candidate, [], historyBytes)
          if changed = [] then some candidate
          else
            let current := treesOf candidate
            if (history.any fun past => repeated past current) = true then none
            else
              let pending := readers candidate changed
              Frontend.discover index excluded budget rounds (lowers + batch.length)
                candidate pending (history ++ [current]) (historyBytes + current.size * 64)

/-- What a failed discovery publishes of a document. -/
def failDocument (document : DocumentSnapshot platform Parsed) : DocumentSnapshot platform Parsed :=
  if document.source = .overlay then
    let coverage := AnalysisCoverage.limit {} .factStability
    { document with
      factCoverage := document.factCoverage.merge coverage
      hir := document.hir.map fun hir =>
        let hir := hir.discardConditionalBaseFacts
        { hir with analysisCoverage := hir.analysisCoverage.merge coverage } }
  else document

/-- `stabilize_overlay_facts`, without its report. -/
def Frontend.stabilizeOverlayFacts (documents : Documents platform Parsed) (index : WorkspaceIndex)
    (excluded : Finset Nat) (budget : OverlayFactBudget) : Documents platform Parsed :=
  let base := documents.toList.foldl (frontend.lowerBase budget) ⟨documents, [], 0, false⟩
  let first := treesOf base.documents
  let found := if base.failed = true then none
    else frontend.discover index excluded budget budget.rounds base.lowers
      base.documents base.pending [first] (first.size * 64)
  match found with
  | some candidate => candidate
  | none => base.documents.map fun _ document => failDocument document

end Rounds

/-! ## What lowering again leaves alone -/

section Relowered

variable {platform : Platform} {Parsed : Type}

/-- A document with other facts; one that is not open is the same. -/
structure Relowered (old new : DocumentSnapshot platform Parsed) : Prop where
  id : new.id = old.id
  version : new.version = old.version
  text : new.text = old.text
  source : new.source = old.source
  path : new.path = old.path
  parsed : new.parsed = old.parsed
  disk : old.source = .disk → new = old

theorem Relowered.refl (document : DocumentSnapshot platform Parsed) :
    Relowered document document :=
  ⟨rfl, rfl, rfl, rfl, rfl, rfl, fun _ => rfl⟩

theorem Relowered.trans {a b c : DocumentSnapshot platform Parsed} (hab : Relowered a b)
    (hbc : Relowered b c) : Relowered a c where
  id := hbc.id.trans hab.id
  version := hbc.version.trans hab.version
  text := hbc.text.trans hab.text
  source := hbc.source.trans hab.source
  path := hbc.path.trans hab.path
  parsed := hbc.parsed.trans hab.parsed
  disk h := (hbc.disk (hab.source.trans h)).trans (hab.disk h)

/-- The same documents with other facts. -/
def SameDocuments (old new : Documents platform Parsed) : Prop :=
  ∀ id : Str, Option.Rel Relowered old[id]? new[id]?

theorem SameDocuments.refl (documents : Documents platform Parsed) :
    SameDocuments documents documents := by
  intro id
  cases documents[id]? with
  | none => exact .none
  | some document => exact .some (.refl document)

variable {documents : Documents platform Parsed}

theorem getElem?_insert_document (id other : Str) (document : DocumentSnapshot platform Parsed) :
    (documents.insert id document)[other]? = if id = other then some document else
      documents[other]? := by
  rw [Std.ExtTreeMap.getElem?_insert]
  simp only [Std.compare_eq_iff_eq]

/-- Each document is related to the one of the same identity. -/
def Linked (related : DocumentSnapshot platform Parsed → DocumentSnapshot platform Parsed → Prop)
    (old new : Documents platform Parsed) : Prop :=
  ∀ id : Str, Option.Rel related old[id]? new[id]?

/-- A relation of the documents to what lowering makes of the open ones. -/
structure KeptByLowering (frontend : Frontend platform Parsed)
    (related : DocumentSnapshot platform Parsed → DocumentSnapshot platform Parsed → Prop) :
    Prop where
  refl : ∀ document, related document document
  source : ∀ {old new}, related old new → new.source = old.source
  covered : ∀ {old new}, related old new → new.source = .overlay →
    related old { new with factCoverage := {} }
  lowered : ∀ {old new}, related old new → new.source = .overlay → ∀ facts reads,
    related old { (frontend.relowerDocumentSnapshot new facts).1 with factDependencies := reads }

variable {related : DocumentSnapshot platform Parsed → DocumentSnapshot platform Parsed → Prop}

theorem Linked.refl (h : ∀ document, related document document)
    (documents : Documents platform Parsed) : Linked related documents documents := by
  intro id
  cases documents[id]? with
  | none => exact .none
  | some document => exact .some (h document)

/-- A document is replaced by a related one. -/
theorem Linked.insert {old new : Documents platform Parsed} (h : Linked related old new) {id : Str}
    {known document : DocumentSnapshot platform Parsed} (hknown : old[id]? = some known)
    (hdocument : related known document) : Linked related old (new.insert id document) := by
  intro other
  rw [getElem?_insert_document]
  split_ifs with heq
  · rw [← heq, hknown]
    exact .some hdocument
  · exact h other

/-- The document that has become this one. -/
theorem Linked.known {old new : Documents platform Parsed} (h : Linked related old new) {id : Str}
    {document : DocumentSnapshot platform Parsed} (hdocument : new[id]? = some document) :
    ∃ known, old[id]? = some known ∧ related known document := by
  have hrel := h id
  rw [hdocument] at hrel
  cases hknown : old[id]? with
  | none =>
    rw [hknown] at hrel
    cases hrel
  | some known =>
    rw [hknown] at hrel
    cases hrel with
    | some hrelated => exact ⟨known, rfl, hrelated⟩

variable {frontend : Frontend platform Parsed}

/-- The first pass has related documents and lowers open ones. -/
structure Base.Fine (related : DocumentSnapshot platform Parsed →
    DocumentSnapshot platform Parsed → Prop)
    (documents : Documents platform Parsed) (base : Base platform Parsed) : Prop where
  linked : Linked related documents base.documents
  pending : ∀ id ∈ base.pending, ∀ document, documents[id]? = some document →
  document.source = .overlay

theorem fine_lowerBase (hkept : KeptByLowering frontend related) (budget : OverlayFactBudget)
    {base : Base platform Parsed} (h : base.Fine related documents)
    {entry : Str × DocumentSnapshot platform Parsed} (hentry : documents[entry.1]? = some entry.2) :
    (frontend.lowerBase budget base entry).Fine related documents := by
  unfold Frontend.lowerBase
  dsimp only
  split_ifs with hskip hfacts hbudget
  · exact h
  all_goals
    have hoverlay : entry.2.source = .overlay := by
      by_contra hne
      exact hskip (.inr hne)
    have hcovered := hkept.covered (hkept.refl entry.2) hoverlay
  · exact ⟨h.linked.insert hentry hcovered, h.pending⟩
  · exact ⟨h.linked.insert hentry hcovered, h.pending⟩
  · refine ⟨h.linked.insert hentry (hkept.lowered hcovered hoverlay none ∅), ?_⟩
    intro id hid document hdocument
    rcases List.mem_append.mp hid with hid | hid
    · exact h.pending id hid document hdocument
    · obtain rfl := List.mem_singleton.mp hid
      rw [hentry] at hdocument
      rw [← Option.some.inj hdocument]
      exact hoverlay

theorem fine_base (hkept : KeptByLowering frontend related) (budget : OverlayFactBudget)
    (documents : Documents platform Parsed) :
    (documents.toList.foldl (frontend.lowerBase budget) ⟨documents, [], 0, false⟩).Fine related
      documents := by
  refine List.foldlRecOn documents.toList _
    ⟨.refl hkept.refl documents, fun id hid => absurd hid List.not_mem_nil⟩ ?_
  intro base hbase entry hentry
  exact fine_lowerBase hkept budget hbase (Std.ExtTreeMap.mem_toList_iff_getElem?_eq_some.mp hentry)

theorem takeNext_fst (state : Documents platform Parsed × List SymbolDependency × Nat)
    (entry : Str × DocumentSnapshot platform Parsed) :
    (takeNext state entry).1 = state.1.insert entry.1 entry.2 := by
  obtain ⟨candidate, changed, historyBytes⟩ := state
  unfold takeNext
  dsimp only
  split
  · split_ifs <;> rfl
  · rfl

/-- A round keeps the documents related. -/
theorem linked_batch {batch : List (Str × DocumentSnapshot platform Parsed)}
    (hbatch : ∀ entry ∈ batch, ∃ document, documents[entry.1]? = some document ∧
      related document entry.2)
    (state : Documents platform Parsed × List SymbolDependency × Nat)
      (h : Linked related documents state.1) :
    Linked related documents (batch.foldl takeNext state).1 := by
  have hfold := List.foldlRecOn batch takeNext
    (motive := fun state : Documents platform Parsed × List SymbolDependency × Nat =>
      Linked related documents state.1) (b := state) h
  apply hfold
  intro state hstate entry hentry
  obtain ⟨document, hdocument, hrelated⟩ := hbatch entry hentry
  rw [takeNext_fst]
  exact hstate.insert hdocument hrelated

theorem overlay_of_mem_readers
    {changed : List SymbolDependency} {id : Str} (h : id ∈ readers documents changed)
    {document : DocumentSnapshot platform Parsed} (hdocument : documents[id]? = some document) :
    document.source = .overlay := by
  obtain ⟨entry, hentry, rfl⟩ := List.mem_map.mp h
  obtain ⟨hmem, hreads⟩ := List.mem_filter.mp hentry
  rw [Std.ExtTreeMap.mem_toList_iff_getElem?_eq_some.mp hmem] at hdocument
  rw [← Option.some.inj hdocument]
  exact (of_decide_eq_true hreads).1

/-- The rounds keep the documents related. -/
theorem linked_discover (hkept : KeptByLowering frontend related) (index : WorkspaceIndex)
    (excluded : Finset Nat) (budget : OverlayFactBudget) {found : Documents platform Parsed}
    (rounds : Nat) :
    ∀ (lowers : Nat) (candidate : Documents platform Parsed) (pending : List Str)
      (history : List (Std.ExtTreeMap Str HirFile)) (historyBytes : Nat),
      Linked related documents candidate →
      (∀ id ∈ pending, ∀ document, candidate[id]? = some document → document.source = .overlay) →
      frontend.discover index excluded budget rounds lowers candidate pending history historyBytes =
        some found → Linked related documents found := by
  induction rounds with
  | zero =>
    intro lowers candidate pending history historyBytes hlinked _ hfound
    unfold Frontend.discover at hfound
    split_ifs at hfound
    exact Option.some.inj hfound ▸ hlinked
  | succ rounds ih =>
    intro lowers candidate pending history historyBytes hlinked hpending hfound
    unfold Frontend.discover at hfound
    have hbatch : ∀ entry ∈ frontend.batch index excluded candidate pending,
        ∃ document, documents[entry.1]? = some document ∧ related document entry.2 := by
      intro entry hentry
      obtain ⟨id, hid, hmap⟩ := List.mem_filterMap.mp hentry
      obtain ⟨document, hdocument, rfl⟩ := Option.map_eq_some_iff.mp hmap
      obtain ⟨known, hknown, hrelated⟩ := hlinked.known hdocument
      exact ⟨known, hknown, hkept.lowered hrelated (hpending id hid document hdocument) _ _⟩
    have hnext := linked_batch hbatch (candidate, [], historyBytes) hlinked
    dsimp only at hfound
    revert hfound hnext
    cases (frontend.batch index excluded candidate pending).foldl takeNext
      (candidate, [], historyBytes) with
    | mk next rest =>
    intro hfound hnext
    split_ifs at hfound with hdone
    · exact Option.some.inj hfound ▸ hlinked
    · exact Option.some.inj hfound ▸ hnext
    · refine ih _ _ _ _ _ hnext ?_ hfound
      intro id hid document hdocument
      exact overlay_of_mem_readers hid hdocument

/-- Stabilizing keeps the documents related, until a failed discovery withdraws their facts. -/
theorem linked_stabilizeOverlayFacts (hkept : KeptByLowering frontend related)
    (documents : Documents platform Parsed) (index : WorkspaceIndex) (excluded : Finset Nat)
    (budget : OverlayFactBudget) : ∃ found, Linked related documents found ∧
      (frontend.stabilizeOverlayFacts documents index excluded budget = found ∨
        frontend.stabilizeOverlayFacts documents index excluded budget =
          found.map fun _ document => failDocument document) := by
  have hfine := fine_base hkept budget documents
  unfold Frontend.stabilizeOverlayFacts
  revert hfine
  generalize documents.toList.foldl (frontend.lowerBase budget) ⟨documents, [], 0, false⟩ = base
  intro hfine
  dsimp only
  split
  next candidate hfound =>
    split_ifs at hfound
    refine ⟨candidate, linked_discover hkept index excluded budget _ _ _ _ _ _ hfine.linked ?_
      hfound, .inl rfl⟩
    intro id hid document hdocument
    obtain ⟨known, hknown, hrelated⟩ := hfine.linked.known hdocument
    rw [hkept.source hrelated]
    exact hfine.pending id hid known hknown
  next => exact ⟨base.documents, hfine.linked, .inr rfl⟩

theorem keptByLowering_relowered (frontend : Frontend platform Parsed) :
    KeptByLowering frontend Relowered where
  refl := .refl
  source h := h.source
  covered h hoverlay := by
    refine h.trans ⟨rfl, rfl, rfl, rfl, rfl, rfl, fun hdisk => ?_⟩
    rw [hoverlay] at hdisk
    cases hdisk
  lowered {old new} h hoverlay facts reads := by
    have hdisk : new.source ≠ .disk := by
      rw [hoverlay]
      exact fun heq => nomatch heq
    refine h.trans ?_
    unfold Frontend.relowerDocumentSnapshot
    split <;> exact ⟨rfl, rfl, rfl, rfl, rfl, rfl, fun hsource => absurd hsource hdisk⟩

theorem relowered_failDocument (document : DocumentSnapshot platform Parsed) :
    Relowered document (failDocument document) := by
  unfold failDocument
  split_ifs with h
  · refine ⟨rfl, rfl, rfl, rfl, rfl, rfl, fun hdisk => ?_⟩
    rw [h] at hdisk
    cases hdisk
  · exact .refl document

/-- A failed discovery keeps the documents. -/
theorem SameDocuments.fail {old new : Documents platform Parsed} (h : SameDocuments old new) :
    SameDocuments old (new.map fun _ document => failDocument document) := by
  intro id
  have hrel := h id
  rw [Std.ExtTreeMap.getElem?_map]
  cases hold : old[id]? with
  | none =>
    rw [hold] at hrel
    cases hnew : new[id]? with
    | none => exact .none
    | some document =>
      rw [hnew] at hrel
      cases hrel
  | some known =>
    rw [hold] at hrel
    cases hnew : new[id]? with
    | none =>
      rw [hnew] at hrel
      cases hrel
    | some document =>
      rw [hnew] at hrel
      cases hrel with
      | some hrelowered => exact .some (hrelowered.trans (relowered_failDocument document))

/-- Stabilizing changes the facts of the open documents only. -/
theorem sameDocuments_stabilizeOverlayFacts (frontend : Frontend platform Parsed)
    (documents : Documents platform Parsed) (index : WorkspaceIndex) (excluded : Finset Nat)
    (budget : OverlayFactBudget) :
    SameDocuments documents (frontend.stabilizeOverlayFacts documents index excluded budget) := by
  obtain ⟨found, hfound, heq | heq⟩ :=
    linked_stabilizeOverlayFacts (keptByLowering_relowered frontend) documents index excluded budget
  · rw [heq]
    exact hfound
  · rw [heq]
    exact SameDocuments.fail hfound

end Relowered

end ParadoxCode.Workspace
