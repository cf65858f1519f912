import ParadoxCode.Ide.Resolution
import ParadoxCode.Lib.LastMax
import ParadoxCode.Workspace.Resolved

/-!
# The winners of a symbol

`resolution.rs` and `search.rs` of the ide crate: besides `resolve_symbol` there are the context for
point queries, the list of all versions of a definition with its active entries, and the candidates
of a hover.

The roots and the versions of the listed entries are left out; no winner depends on them.
-/

namespace ParadoxCode.Ide

open Engine.Store (Definition)
open Format (eqIgnoreAsciiCase)
open LastMax
open StableSort
open Workspace (WorkspaceIndex lookupName)
open Workspace.SourceResolution (PathOperations Document numbered)

/-! ## The other collectors -/

/-- The key of a symbol without case. -/
def foldedKey (kind name : Str) : Str × Str := (toAsciiLowercase kind, toAsciiLowercase name)

def isLocalisation (kind : Str) : Bool := eqIgnoreAsciiCase kind "localisation".toList

/-- `effective_localisation_candidate`. -/
def effectiveLocalisationCandidate (candidates : List ResolutionDefinition) :
    Option ResolutionDefinition :=
  candidates.head?.bind fun first =>
    (candidates.takeWhile fun candidate => candidate.priority == first.priority).getLast?

/-- `DirectResolutionContext`. The map of the definitions of overlays is kept as what is pushed to
it. -/
structure DirectResolutionContext where
  overlayFiles : Finset Nat
  overlayDefinitions : List ((Str × Str) × ResolutionDefinition)

/-- `EditorDefinition`. -/
structure EditorDefinition where
  name : Str
  kind : Str
  location : Location
  active : Bool
  definitionRange : TextRange
  priority : Nat
  deriving DecidableEq

namespace EditorDefinition

def key (entry : EditorDefinition) : Str × Str := foldedKey entry.kind entry.name

/-- What winners are compared by: the order of resolution, then the index before documents. -/
def rank (entry : EditorDefinition) : (ℕ ×ₗ Str ×ₗ ℕ ×ₗ ℕ ×ₗ ℕ) ×ₗ Bool :=
  toLex (resolutionOrder entry.priority entry.location.path entry.definitionRange
    entry.location.range, entry.location.document.isNone)

end EditorDefinition

section Collectors

variable {Path : Type} [Ord Path] [Std.TransOrd Path] [Std.LawfulEqOrd Path]
  (ops : PathOperations Path) (snapshot : AnalysisSnapshot Path)

namespace AnalysisSnapshot

/-- The overlay documents that no other document of their file suppresses. -/
def unsuppressedDocuments : List (Str × Document Path) :=
  snapshot.overlayDocuments.filter fun entry =>
    decide (entry.1 ∉ snapshot.suppressedOverlayDocuments ops)

/-- The definitions of the index outside of the files of overlays. -/
def indexedDefinitions (kind name : Str) : List Definition :=
  (snapshot.index.definitionsFor kind name).filter fun definition =>
    decide (definition.fileId ∉ snapshot.overlayFileIds ops)

/-- `symbol_candidates_for_hover`. -/
def symbolCandidatesForHover (kind name : Str) : List ResolutionDefinition :=
  let semantic := (snapshot.unsuppressedDocuments ops).flatMap fun entry =>
    ((snapshot.documentFacts ops entry).definitions.filter fun definition =>
      definition.kind == kind && sameName definition.name name).map
        (snapshot.resolutionDefinition ops)
  let indexed := (snapshot.indexedDefinitions ops kind name).map snapshot.indexDefinition
  snapshot.preferLanguageOf kind (orderCandidates (semantic ++ indexed))

/-- `DirectResolutionContext::new`. -/
def directContext : DirectResolutionContext where
  overlayFiles := snapshot.overlayFileIds ops
  overlayDefinitions :=
    ((snapshot.unsuppressedDocuments ops).filter fun entry =>
      snapshot.sourceIsEffective ops (some entry.1) none).flatMap fun entry =>
        (snapshot.documentFacts ops entry).definitions.map fun definition =>
          (foldedKey definition.kind definition.name, snapshot.resolutionDefinition ops definition)

/-- `candidates` of the context. -/
def directCandidates (context : DirectResolutionContext) (kind name : Str) :
    List ResolutionDefinition :=
  let overlay := (context.overlayDefinitions.filter fun entry =>
    decide (entry.1 = foldedKey kind name)).map Prod.snd
  let indexed := ((snapshot.index.definitionsFor kind name).filter fun definition =>
    decide (definition.fileId ∉ context.overlayFiles) &&
      snapshot.sourceIsEffective ops none (some definition.fileId)).map snapshot.indexDefinition
  snapshot.preferLanguageOf kind (overlay ++ indexed)

/-- `resolve` of the context. -/
def directResolve (kind name : Str) : Resolution :=
  winner (snapshot.directCandidates ops (snapshot.directContext ops) kind name)

/-- The entry of an indexed definition. -/
def indexEntry (definition : Definition) : EditorDefinition where
  name := definition.name
  kind := definition.kind
  location := (snapshot.fileOwner definition.fileId).location definition.selectionRange
  active := false
  definitionRange := definition.range
  priority := snapshot.definitionPriorityForFile definition.fileId

/-- The entry of a definition in an open document. -/
def documentEntry (definition : DefinitionInfo) : EditorDefinition where
  name := definition.name
  kind := definition.kind
  location := definition.owner.location definition.selectionRange
  active := false
  definitionRange := definition.range
  priority := snapshot.definitionPriority ops definition

/-- All versions of all definitions. -/
def editorEntries : List EditorDefinition :=
  ((snapshot.index.definitionsIter.filter fun definition =>
    !isLocalisation definition.kind && decide (definition.fileId ∉ snapshot.overlayFileIds ops)).map
      snapshot.indexEntry) ++
    (snapshot.unsuppressedDocuments ops).flatMap fun entry =>
      ((snapshot.documentFacts ops entry).definitions.filter fun definition =>
        !isLocalisation definition.kind).map (snapshot.documentEntry ops)

/-- The winner of a key among the effective entries. -/
def editorWinner (entries : List EditorDefinition) (key : Str × Str) : Option EditorDefinition :=
  (entries.filter fun entry =>
    snapshot.sourceIsEffective ops entry.location.document entry.location.file &&
      decide (entry.key = key)).foldl (better EditorDefinition.rank) none

/-- `editor_definitions`: active are the entries at the place of the winner. -/
def editorDefinitions : List EditorDefinition :=
  (snapshot.editorEntries ops).map fun entry =>
    { entry with
      active := (snapshot.editorWinner ops (snapshot.editorEntries ops) entry.key).any fun winner =>
        entry.location.document == winner.location.document &&
          entry.location.file == winner.location.file &&
          entry.location.range == winner.location.range }

end AnalysisSnapshot

end Collectors

/-! ## The index -/

section Index

open Workspace

/-- A pointer of a shard has a definition with its key. -/
theorem definition_of_ownPointers {fileId : Nat} {shard : Engine.Store.FileIndexShard}
    {key : Str × Str} {pointer : DefinitionPointer} (h : pointer ∈ ownPointers fileId shard key) :
    ∃ definition, shard.definitions[pointer.ordinal]? = some definition ∧
    definitionKey definition = key := by
  obtain ⟨p, hp, rfl⟩ := List.mem_map.mp h
  obtain ⟨hp, hkey⟩ := List.mem_filter.mp hp
  obtain ⟨item, hitem, rfl⟩ := List.mem_map.mp hp
  exact ⟨item.1, List.mk_mem_zipIdx_iff_getElem?.mp (show (item.1, item.2) ∈ _ from hitem),
    of_decide_eq_true hkey⟩

/-- The buckets of a maintained index have definitions with their keys. -/
theorem definitionKey_of_bucket {priorities : Priorities} {index : WorkspaceIndex}
    (h : Follows priorities index.shards index.definitions) {key : Str × Str}
    {pointer : DefinitionPointer}
    (hpointer : pointer ∈ index.definitions.bucket key) {definition : Definition}
    (hdefinition : definitionAt index.shards pointer = some definition) :
    definitionKey definition = key := by
  have hordinal : pointer.ordinal ∈ ordinals (index.definitions.bucket key) pointer.fileId :=
    List.mem_map.mpr ⟨pointer, List.mem_filter.mpr ⟨hpointer, by simp⟩, rfl⟩
  rw [h.ordinals] at hordinal
  unfold expected at hordinal
  unfold definitionAt at hdefinition
  cases hshard : index.shards[pointer.fileId]? with
  | none =>
    rw [hshard] at hordinal
    cases hordinal
  | some shard =>
    rw [hshard] at hordinal hdefinition
    obtain ⟨own, hown, heq⟩ := List.mem_map.mp hordinal
    obtain ⟨other, hother, hkey⟩ := definition_of_ownPointers ((perm_sortByKey _ _).mem_iff.mp hown)
    rw [heq] at hother
    obtain rfl := Option.some.inj (hother.symm.trans hdefinition)
    exact hkey

/-- The definitions of one key, where its kind has one spelling. -/
theorem filter_definitionsIter {priorities : Priorities} {index : WorkspaceIndex}
    (h : Follows priorities index.shards index.definitions) {kind name : Str}
    (hkind : ∀ definition ∈ index.definitionsIter, eqIgnoreAsciiCase definition.kind kind = true →
      definition.kind = kind) :
    index.definitionsIter.filter (fun definition =>
      decide (foldedKey definition.kind definition.name = foldedKey kind name)) =
      index.definitionsFor kind name := by
  have hkey : ∀ definition ∈ index.definitionsIter,
      decide (foldedKey definition.kind definition.name = foldedKey kind name) =
        decide (definitionKey definition = (kind, lookupName name)) := by
    intro definition hdefinition
    refine decide_eq_decide.mpr ⟨fun heq => ?_, fun heq => ?_⟩
    · obtain ⟨hlower, hname⟩ := Prod.mk.inj heq
      exact Prod.ext (hkind definition hdefinition (beq_iff_eq.mpr hlower)) hname
    · obtain ⟨rfl, hname⟩ := Prod.mk.inj heq
      exact Prod.ext rfl hname
  rw [List.filter_congr hkey]
  exact Buckets.filter_toList index.definitions (kind, lookupName name)
    fun known pointer hpointer definition =>
    definitionKey_of_bucket h hpointer

end Index

/-! ## Lists of candidates -/

section Candidates

/-- The priority, the path and the range: what candidates of a hover are compared by. -/
def hoverOrder (candidate : ResolutionDefinition) : ℕ ×ₗ Str ×ₗ ℕ ×ₗ ℕ :=
  toLex (candidate.priority, toLex (candidate.location.path.getD [],
    toLex (candidate.location.range.start, candidate.location.range.stop)))

/-- `resolution_order` of a candidate. -/
def fullOrder (candidate : ResolutionDefinition) : ℕ ×ₗ Str ×ₗ ℕ ×ₗ ℕ ×ₗ ℕ :=
  resolutionOrder candidate.priority candidate.location.path candidate.location.range
    candidate.selectionRange

variable {a b : ResolutionDefinition}

theorem fullOrder_eq_iff : fullOrder a = fullOrder b ↔ hoverOrder a = hoverOrder b ∧
    a.selectionRange.start = b.selectionRange.start := by
  unfold fullOrder resolutionOrder hoverOrder
  simp only [toLex_inj, Prod.mk.injEq]
  tauto

theorem candidateKey_of_hoverOrder (h : hoverOrder a = hoverOrder b) :
    candidateKey a = candidateKey b := by
  unfold hoverOrder at h
  unfold candidateKey
  simp only [toLex_inj, Prod.mk.injEq] at h ⊢
  exact ⟨congrArg _ h.1, h.2⟩

/-- Whether a candidate is in a language. -/
def inLanguage (language : Str) (candidate : ResolutionDefinition) : Bool :=
  (localisationLanguage candidate.location.path).any (eqIgnoreAsciiCase · language)

/-- The preference is a filter by the first language that has a candidate. -/
theorem preferLocalisationLanguageOrdered_eq (candidates : List ResolutionDefinition)
    (languages : List Str) :
    preferLocalisationLanguageOrdered candidates languages =
      (languages.find? fun language => candidates.any (inLanguage language)).elim candidates
        fun language => candidates.filter (inLanguage language) := by
  have hfind : ∀ languages : List Str,
      (((languages.map fun language => candidates.filter (inLanguage language)).find? fun found =>
        !List.isEmpty found).getD candidates) =
        (languages.find? fun language => candidates.any (inLanguage language)).elim candidates
          fun language => candidates.filter (inLanguage language) := by
    intro languages
    induction languages with
    | nil => rfl
    | cons language languages ih =>
      have hempty : (!(candidates.filter (inLanguage language)).isEmpty) =
        candidates.any (inLanguage language) := by
        rw [Bool.eq_iff_iff, Bool.not_eq_true', List.isEmpty_eq_false_iff, List.any_eq_true, Ne,
          List.filter_eq_nil_iff]
        simp
      rw [List.map_cons, List.find?_cons, List.find?_cons, hempty]
      cases candidates.any (inLanguage language) with
      | true => rfl
      | false => exact ih
  unfold preferLocalisationLanguageOrdered
  split_ifs with hshort
  · -- one candidate is all that its language has
    match candidates, hshort with
    | [], _ =>
      cases languages.find? fun language => List.any [] (inLanguage language) <;> rfl
    | [candidate], _ =>
      cases hlanguage : languages.find? fun language =>
        List.any [candidate] (inLanguage language) with
      | none => rfl
      | some language =>
        have hin := List.find?_some hlanguage
        rw [List.any_cons, List.any_nil, Bool.or_false] at hin
        rw [Option.elim_some, List.filter_cons_of_pos hin]
        rfl
  · exact hfind languages

section Prefer

variable {κ : Type*} [LinearOrder κ] {key : ResolutionDefinition → κ}

/-- The place of the first language that a candidate is in. -/
def languageRank (languages : List Str) (candidate : ResolutionDefinition) : Nat :=
  languages.findIdx fun language => inLanguage language candidate

/-- The preference keeps the candidates whose language comes first. -/
theorem exists_preferLocalisationLanguageOrdered (candidates : List ResolutionDefinition) :
    ∀ languages : List Str, ∃ best, preferLocalisationLanguageOrdered candidates languages =
      candidates.filter (fun candidate => decide (languageRank languages candidate = best)) ∧
        (∀ candidate ∈ candidates, best ≤ languageRank languages candidate) ∧
          (candidates ≠ [] → ∃ candidate ∈ candidates,
            languageRank languages candidate = best) := by
  intro languages
  rw [preferLocalisationLanguageOrdered_eq]
  induction languages with
  | nil =>
    refine ⟨0, (List.filter_eq_self.mpr fun _ _ => decide_eq_true rfl).symm,
      fun _ _ => Nat.zero_le _,
      fun hne => ?_⟩
    obtain ⟨candidate, hmem⟩ := List.exists_mem_of_ne_nil candidates hne
    exact ⟨candidate, hmem, rfl⟩
  | cons language languages ih =>
    have hrank : ∀ candidate, languageRank (language :: languages) candidate =
        if inLanguage language candidate = true then 0 else
          languageRank languages candidate + 1 := by
      intro candidate
      unfold languageRank
      rw [List.findIdx_cons]
      cases inLanguage language candidate <;> rfl
    rw [List.find?_cons]
    cases hany : candidates.any (inLanguage language) with
    | true =>
      obtain ⟨found, hmem, hin⟩ := List.any_eq_true.mp hany
      refine ⟨0, List.filter_congr fun candidate _ => ?_, fun _ _ => Nat.zero_le _,
        fun _ => ⟨found, hmem, by rw [hrank, if_pos hin]⟩⟩
      rw [hrank]
      cases inLanguage language candidate <;> simp
    | false =>
      have hnone : ∀ candidate ∈ candidates, inLanguage language candidate = false := by
        simpa using hany
      have hbehind : ∀ candidate ∈ candidates, languageRank (language :: languages) candidate =
          languageRank languages candidate + 1 := by
        intro candidate hmem
        rw [hrank, hnone candidate hmem, if_neg Bool.false_ne_true]
      obtain ⟨best, heq, hle, hreached⟩ := ih
      refine ⟨best + 1, heq.trans (List.filter_congr fun candidate hmem => ?_),
        fun candidate hmem => ?_,
        fun hne => ?_⟩
      · rw [hbehind candidate hmem]
        simp
      · rw [hbehind candidate hmem]
        exact Nat.succ_le_succ (hle candidate hmem)
      · obtain ⟨candidate, hmem, hbest⟩ := hreached hne
        exact ⟨candidate, hmem, by rw [hbehind candidate hmem, hbest]⟩

theorem preferLanguageOf_sublist {Path : Type} [Ord Path]
    {snapshot : AnalysisSnapshot Path} (kind : Str) (candidates : List ResolutionDefinition) :
    (snapshot.preferLanguageOf kind candidates).Sublist candidates := by
  unfold AnalysisSnapshot.preferLanguageOf AnalysisSnapshot.preferLocalisationLanguage
  split_ifs
  · rw [preferLocalisationLanguageOrdered_eq]
    cases List.find? _ _ with
    | none => exact List.Sublist.refl candidates
    | some language => exact List.filter_sublist
  · exact List.Sublist.refl candidates

variable {Path : Type} [Ord Path] {snapshot : AnalysisSnapshot Path}

namespace AnalysisSnapshot

variable (snapshot) in
/-- An order behind the preference for languages. -/
def shown (kind : Str) (key : ResolutionDefinition → κ)
    (candidate : ResolutionDefinition) : ℕᵒᵈ ×ₗ κ :=
  toLex (OrderDual.toDual (if isLocalisation kind then
    languageRank [snapshot.previewLanguage, "english".toList] candidate else 0), key candidate)

/-- The greatest of the preferred candidates comes first in language, then in order. -/
theorem lastMax_preferLanguageOf (kind : Str) (candidates : List ResolutionDefinition) :
    lastMax key (snapshot.preferLanguageOf kind candidates) =
      lastMax (snapshot.shown kind key) candidates := by
  unfold preferLanguageOf preferLocalisationLanguage shown isLocalisation
  split_ifs with hkind
  · obtain ⟨best, heq, hle, hreached⟩ := exists_preferLocalisationLanguageOrdered candidates
      [snapshot.previewLanguage, "english".toList]
    have hbest : ∀ candidate ∈ candidates.filter (fun candidate => decide
        (languageRank [snapshot.previewLanguage, "english".toList] candidate = best)),
          languageRank [snapshot.previewLanguage, "english".toList] candidate = best :=
      fun candidate hmem => of_decide_eq_true (List.mem_filter.mp hmem).2
    rw [heq]
    refine (lastMax_congr_order fun a ha b hb => ?_).trans (lastMax_filter fun b hb hrank => ?_)
    · rw [hbest a ha, hbest b hb, Prod.Lex.toLex_le_toLex]
      simp
    · -- the languages behind the best one are below
      obtain ⟨c, hc, hfirst⟩ := hreached (List.ne_nil_of_mem hb)
      have hlt := lt_of_le_of_ne (hle b hb) (Ne.symm (of_decide_eq_false hrank))
      exact ⟨c, hc, decide_eq_true hfirst, Prod.Lex.toLex_lt_toLex.mpr
        (.inl (OrderDual.toDual_lt_toDual.mpr (hfirst ▸ hlt)))⟩
  · refine lastMax_congr_order fun a _ b _ => ?_
    rw [Prod.Lex.toLex_le_toLex]
    simp

end AnalysisSnapshot

end Prefer

/-- The order of candidates and the repetitions change neither the members nor a winner. -/
theorem orderCandidates_eq {candidates : List ResolutionDefinition}
    (hpriority : ∀ a ∈ candidates, ∀ b ∈ candidates, a.location = b.location →
      a.priority = b.priority) :
    orderCandidates candidates = (sortByKey candidateKey candidates).destutter (· ≠ ·) := by
  unfold orderCandidates
  refine Dedup.destutter_congr fun a ha b hb => not_congr ⟨?_, ?_⟩
  · rintro ⟨hlocation, hselection⟩
    have hmem : ∀ c, c ∈ sortByKey candidateKey candidates → c ∈ candidates :=
      fun c => (perm_sortByKey _ _).mem_iff.mp
    cases a
    cases b
    simp only [ResolutionDefinition.mk.injEq]
    exact ⟨hlocation, hselection, hpriority _ (hmem _ ha) _ (hmem _ hb) hlocation⟩
  · rintro rfl
    exact ⟨rfl, rfl⟩

section Order

variable {κ : Type*} [LinearOrder κ] {key : ResolutionDefinition → κ}
  (hkey : ∀ a b, key a = key b → hoverOrder a = hoverOrder b)

include hkey

theorem lastMax_orderCandidates {candidates : List ResolutionDefinition}
    (hpriority : ∀ a ∈ candidates, ∀ b ∈ candidates, a.location = b.location →
      a.priority = b.priority) :
    lastMax key (orderCandidates candidates) = lastMax key candidates := by
  rw [orderCandidates_eq hpriority]
  refine lastMax_congr fun k => ?_
  rw [getLast?_filter_destutter, filter_sortByKey, sortByKey_eq_self]
  refine List.pairwise_of_forall_mem_list fun a ha b hb => ?_
  have ha' := (List.mem_filter.mp ha).2
  have hb' := (List.mem_filter.mp hb).2
  simp only [decide_eq_true_eq] at ha' hb'
  exact (candidateKey_of_hoverOrder (hkey a b (ha'.trans hb'.symm))).le

theorem lastMax_prefer_orderCandidates {Path : Type} [Ord Path] {snapshot : AnalysisSnapshot Path}
    {candidates : List ResolutionDefinition}
    (hpriority : ∀ a ∈ candidates, ∀ b ∈ candidates, a.location = b.location →
      a.priority = b.priority)
    (kind : Str) :
    lastMax key (snapshot.preferLanguageOf kind (orderCandidates candidates)) =
      lastMax (snapshot.shown kind key) candidates := by
  rw [AnalysisSnapshot.lastMax_preferLanguageOf]
  refine lastMax_orderCandidates (fun a b hab => hkey a b ?_) hpriority
  unfold AnalysisSnapshot.shown at hab
  exact (Prod.mk.inj (toLex_inj.mp hab)).2

end Order

/-- The greatest of a list and a start. -/
theorem foldl_max (ns : List Nat) : ∀ n : Nat, n ≤ ns.foldl max n ∧ (∀ m ∈ ns, m ≤ ns.foldl max n) ∧
    (ns.foldl max n = n ∨ ns.foldl max n ∈ ns) := by
  induction ns with
  | nil => exact fun n => ⟨le_rfl, fun m hm => absurd hm List.not_mem_nil, .inl rfl⟩
  | cons k ns ih =>
    intro n
    obtain ⟨hstart, hle, hmem⟩ := ih (max n k)
    rw [List.foldl_cons]
    refine ⟨(le_max_left n k).trans hstart, fun m hm => ?_, ?_⟩
    · rcases List.mem_cons.mp hm with rfl | hm
      · exact (le_max_right n m).trans hstart
      · exact hle m hm
    · rcases hmem with heq | hmem
      · rw [heq]
        rcases max_choice n k with hn | hk
        · exact .inl hn
        · rw [hk]
          exact .inr List.mem_cons_self
      · exact .inr (List.mem_cons_of_mem k hmem)

/-- The winner is the last of the greatest. -/
theorem winner_eq (candidates : List ResolutionDefinition) :
    winner candidates = (lastMax fullOrder candidates).elim .missing .unique := by
  have hlast : (retainHighestAndOrder candidates).getLast? = lastMax fullOrder candidates := by
    unfold retainHighestAndOrder
    refine (getLast?_sortByKey fullOrder _).trans (lastMax_filter fun b hb hp => ?_)
    -- something has the highest priority, and it is above
    obtain ⟨-, hle, hmem⟩ := foldl_max (candidates.map (·.priority)) 0
    have hb' := hle b.priority (List.mem_map.mpr ⟨b, hb, rfl⟩)
    have hne := beq_eq_false_iff_ne.mp hp
    have hmem : (candidates.map (·.priority)).foldl max 0 ∈ candidates.map (·.priority) := by
      rcases hmem with hzero | hmem
      · omega
      · exact hmem
    obtain ⟨c, hc, heq⟩ := List.mem_map.mp hmem
    refine ⟨c, hc, beq_iff_eq.mpr heq, Prod.Lex.toLex_lt_toLex.mpr (.inl ?_)⟩
    dsimp only
    omega
  unfold winner
  rw [hlast]
  cases lastMax fullOrder candidates <;> rfl

end Candidates

/-! ## The effective candidates -/

section Effective

variable {Path : Type} [Ord Path] [Std.TransOrd Path] [Std.LawfulEqOrd Path]
  (ops : PathOperations Path) (snapshot : AnalysisSnapshot Path)

namespace AnalysisSnapshot

/-- The candidates in open documents that take part. -/
def overlayCandidates (kind name : Str) : List ResolutionDefinition :=
  snapshot.overlayDocuments.flatMap fun entry =>
    ((snapshot.documentFacts ops entry).definitions.filter fun definition =>
      definition.kind == kind && sameName definition.name name &&
        snapshot.sourceIsEffective ops (some entry.1) none).map (snapshot.resolutionDefinition ops)

/-- All candidates of a symbol that take part, those of open documents first. -/
def effectiveCandidates (kind name : Str) : List ResolutionDefinition :=
  snapshot.overlayCandidates ops kind name ++ snapshot.indexCandidates ops kind name

/-- The definitions of open documents and of the index have the kind in one spelling. -/
structure OneSpelling (kind : Str) : Prop where
  documents : ∀ entry ∈ snapshot.overlayDocuments,
    ∀ definition ∈ (snapshot.documentFacts ops entry).definitions,
    eqIgnoreAsciiCase definition.kind kind = true → definition.kind = kind
  index : ∀ definition ∈ snapshot.index.definitionsIter,
    eqIgnoreAsciiCase definition.kind kind = true → definition.kind = kind

/-- No template text of a file on disk declares the symbol. -/
def NoTemplateDefinition (kind name : Str) : Prop :=
  ∀ fileId ∈ snapshot.sourceFiles.toList.map Prod.fst,
    ∀ definition ∈ snapshot.fileDefinitions ops (fun _ => true) fileId,
      ¬ (definition.kind = kind ∧ sameName definition.name name = true)

/-- The priority of a place. -/
def locationPriority (location : Location) : Nat :=
  snapshot.definitionPriority ops ⟨[], [], location.range, location.range,
    ⟨location.document, location.file, location.path⟩⟩

variable {ops snapshot}

omit [Std.TransOrd Path] [Std.LawfulEqOrd Path] in
/-- The facts of a document are its own. -/
theorem owner_of_documentFacts {entry : Str × Document Path} {definition : DefinitionInfo}
    (h : definition ∈ (snapshot.documentFacts ops entry).definitions) :
    definition.owner.document = some entry.1 := by
  unfold documentFacts at h
  cases hdata : snapshot.documentSemantics ops entry.1 with
  | none =>
    rw [hdata] at h
    exact absurd h List.not_mem_nil
  | some data =>
    rw [hdata] at h
    obtain ⟨input, -, hof⟩ := of_documentSemantics ops snapshot hdata
    rw [hof.definitions definition h]
    rfl

omit [Std.TransOrd Path] [Std.LawfulEqOrd Path] in
theorem priority_resolutionDefinition (definition : DefinitionInfo) :
    (snapshot.resolutionDefinition ops definition).priority =
      snapshot.locationPriority ops (snapshot.resolutionDefinition ops definition).location := rfl

omit [Std.TransOrd Path] [Std.LawfulEqOrd Path] in
theorem priority_indexDefinition (definition : Definition) :
    (snapshot.indexDefinition definition).priority =
      snapshot.locationPriority ops (snapshot.indexDefinition definition).location := rfl

omit [Std.TransOrd Path] [Std.LawfulEqOrd Path] in
/-- Candidates from one place have one priority. -/
theorem priority_of_parts {definitions : List DefinitionInfo} {indexed : List Definition} :
    ∀ a ∈ definitions.map (snapshot.resolutionDefinition ops) ++
      indexed.map snapshot.indexDefinition,
      ∀ b ∈ definitions.map (snapshot.resolutionDefinition ops) ++
        indexed.map snapshot.indexDefinition,
        a.location = b.location → a.priority = b.priority := by
  have hpriced : ∀ a ∈ definitions.map (snapshot.resolutionDefinition ops) ++
    indexed.map snapshot.indexDefinition,
      a.priority = snapshot.locationPriority ops a.location := by
    intro a ha
    rcases List.mem_append.mp ha with ha | ha
    · obtain ⟨definition, -, rfl⟩ := List.mem_map.mp ha
      exact priority_resolutionDefinition definition
    · obtain ⟨definition, -, rfl⟩ := List.mem_map.mp ha
      exact priority_indexDefinition definition
  intro a ha b hb hlocation
  rw [hpriced a ha, hpriced b hb, hlocation]

/-- A document that takes part is not suppressed. -/
theorem not_suppressed_of_effective {id : Str}
    (h : snapshot.sourceIsEffective ops (some id) none = true) :
    id ∉ snapshot.suppressedOverlayDocuments ops := by
  classical
  intro hsuppressed
  have howned := Workspace.SourceResolution.owned_ownership ops snapshot.toAnalysisSnapshot
  obtain ⟨path, hpath, -⟩ := (howned.suppressed id).mp hsuppressed
  obtain ⟨owner, -, hby⟩ := Workspace.SourceResolution.exists_owner ops
    snapshot.toAnalysisSnapshot hpath
  exact hby.suppressed.mp hsuppressed (hby.documents (of_decide_eq_true h))

theorem filter_effective_documents :
    (snapshot.unsuppressedDocuments ops).filter
      (fun entry => snapshot.sourceIsEffective ops (some entry.1) none) =
      snapshot.overlayDocuments.filter fun entry => snapshot.sourceIsEffective ops
        (some entry.1) none := by
  unfold unsuppressedDocuments
  rw [List.filter_filter]
  refine List.filter_congr fun entry _ => ?_
  cases heffective : snapshot.sourceIsEffective ops (some entry.1) none with
  | false => rfl
  | true => simpa using not_suppressed_of_effective heffective

omit [Std.LawfulEqOrd Path] in
/-- The candidates in some documents are those in the ones that take part. -/
theorem flatMap_effective (documents : List (Str × Document Path)) (kind name : Str) :
    (documents.flatMap fun entry =>
      ((snapshot.documentFacts ops entry).definitions.filter fun definition =>
        definition.kind == kind && sameName definition.name name &&
          snapshot.sourceIsEffective ops (some entry.1) none).map
            (snapshot.resolutionDefinition ops)) =
      ((documents.filter fun entry => snapshot.sourceIsEffective ops (some entry.1) none).flatMap
        fun entry => (snapshot.documentFacts ops entry).definitions.filter fun definition =>
          definition.kind == kind && sameName definition.name name).map
            (snapshot.resolutionDefinition ops) := by
  induction documents with
  | nil => rfl
  | cons entry documents ih =>
    rw [List.flatMap_cons, List.filter_cons, ih]
    split_ifs with heffective
    · rw [List.flatMap_cons, List.map_append]
      simp only [heffective, Bool.and_true]
    · have hfalse : snapshot.sourceIsEffective ops (some entry.1) none = false :=
        Bool.eq_false_iff.mpr heffective
      simp only [hfalse, Bool.and_false, List.filter_false, List.map_nil, List.nil_append]

omit [Std.LawfulEqOrd Path] in
theorem overlayCandidates_eq (kind name : Str) :
    snapshot.overlayCandidates ops kind name =
      ((snapshot.overlayDocuments.filter fun entry => snapshot.sourceIsEffective ops
        (some entry.1) none).flatMap
        fun entry => (snapshot.documentFacts ops entry).definitions.filter fun definition =>
          definition.kind == kind && sameName definition.name name).map
            (snapshot.resolutionDefinition ops) :=
  flatMap_effective _ kind name

omit [Std.LawfulEqOrd Path] in
/-- The full semantic facts have the same candidates, but for what templates declare on disk. -/
theorem semanticCandidates_allSemantics {kind name : Str}
    (h : snapshot.NoTemplateDefinition ops kind name) :
    snapshot.semanticCandidates ops (snapshot.allSemantics ops) kind name =
      snapshot.overlayCandidates ops kind name := by
  have hfiles : (((snapshot.sourceFiles.toList.map Prod.fst).flatMap
      (snapshot.fileDefinitions ops fun _ => true)).filter fun definition =>
        definition.kind == kind && sameName definition.name name &&
          snapshot.sourceIsEffective ops definition.owner.document definition.owner.file &&
          definition.owner.file.all fun file =>
            decide (file ∉ snapshot.overlayFileIds ops) || definition.owner.document.isSome) =
              [] := by
    refine List.filter_eq_nil_iff.mpr fun definition hdefinition hkeep => ?_
    obtain ⟨fileId, hfile, hdefinition⟩ := List.mem_flatMap.mp hdefinition
    simp only [Bool.and_eq_true, beq_iff_eq] at hkeep
    exact h fileId hfile definition hdefinition ⟨hkeep.1.1.1, hkeep.1.1.2⟩
  unfold semanticCandidates allSemantics overlayCandidates
  rw [definitions_allSemanticsInner, List.filter_append, hfiles, List.nil_append,
    List.filter_flatMap, List.map_flatMap]
  congr 1
  funext entry
  refine congrArg _ (List.filter_congr fun definition hdefinition => ?_)
  have howner := owner_of_documentFacts hdefinition
  have hsource : snapshot.sourceIsEffective ops definition.owner.document definition.owner.file =
      snapshot.sourceIsEffective ops (some entry.1) none := by
    rw [howner]
    rfl
  rw [hsource, howner]
  cases definition.owner.file <;> simp

omit [Std.LawfulEqOrd Path] in
theorem resolveSymbol_allSemantics {kind name : Str}
    (h : snapshot.NoTemplateDefinition ops kind name) :
    snapshot.resolveSymbol ops (snapshot.allSemantics ops) kind name =
      winner (snapshot.preferLanguageOf kind (snapshot.effectiveCandidates ops kind name)) := by
  unfold resolveSymbol symbolCandidates
  rw [semanticCandidates_allSemantics h, winner_eq, winner_eq]
  congr 1
  refine (lastMax_prefer_orderCandidates (fun a b hab => (fullOrder_eq_iff.mp hab).1) ?_ kind).trans
    (lastMax_preferLanguageOf kind _).symm
  rw [overlayCandidates_eq]
  exact priority_of_parts

theorem directCandidates_eq {kind name : Str} (h : snapshot.OneSpelling ops kind) :
    snapshot.directCandidates ops (snapshot.directContext ops) kind name =
      snapshot.preferLanguageOf kind (snapshot.effectiveCandidates ops kind name) := by
  unfold directCandidates directContext effectiveCandidates
  dsimp only
  refine congrArg _ (congrArg (· ++ _) ?_)
  rw [filter_effective_documents, overlayCandidates_eq, List.filter_flatMap, List.map_flatMap,
    List.map_flatMap]
  refine List.flatMap_congr fun entry hentry => ?_
  rw [List.filter_map, List.map_map]
  refine congrArg₂ _ rfl (List.filter_congr fun definition hdefinition => ?_)
  rw [Bool.eq_iff_iff, Bool.and_eq_true, beq_iff_eq]
  refine decide_eq_true_iff.trans ⟨fun heq => ?_, ?_⟩
  · obtain ⟨hkind, hname⟩ := Prod.mk.inj heq
    exact ⟨h.documents entry (List.mem_filter.mp hentry).1 definition hdefinition
      (beq_iff_eq.mpr hkind), beq_iff_eq.mpr hname⟩
  · rintro ⟨rfl, hname⟩
    exact Prod.ext rfl (beq_iff_eq.mp hname)

theorem directResolve_eq {kind name : Str} (h : snapshot.OneSpelling ops kind) :
    snapshot.directResolve ops kind name =
      winner (snapshot.preferLanguageOf kind (snapshot.effectiveCandidates ops kind name)) := by
  unfold directResolve
  rw [directCandidates_eq h]

end AnalysisSnapshot

/-! ## Agreement -/

/-- What an entry is as a candidate. -/
def EditorDefinition.candidate (entry : EditorDefinition) : ResolutionDefinition where
  location := { entry.location with range := entry.definitionRange }
  selectionRange := entry.location.range
  priority := entry.priority

namespace AnalysisSnapshot

variable {ops snapshot}

variable {priorities : Workspace.Priorities}

/-- The effective entries of a key are the effective candidates, those of the index first. -/
theorem map_candidate_editorEntries {kind name : Str}
    (hindex : Workspace.Follows priorities snapshot.index.shards snapshot.index.definitions)
    (h : snapshot.OneSpelling ops kind) (hlocalisation : isLocalisation kind = false) :
    ((snapshot.editorEntries ops).filter fun entry =>
        snapshot.sourceIsEffective ops entry.location.document entry.location.file &&
          decide (entry.key = foldedKey kind name)).map EditorDefinition.candidate =
      snapshot.indexCandidates ops kind name ++ snapshot.overlayCandidates ops kind name := by
  unfold editorEntries
  rw [List.filter_append, List.map_append]
  refine congrArg₂ _ ?_ ?_
  · -- the entries of the index that have the key are the definitions of its bucket
    unfold indexCandidates
    rw [← filter_definitionsIter hindex h.index, List.filter_filter, List.filter_map, List.map_map,
      List.filter_filter]
    refine congrArg₂ _ rfl (List.filter_congr fun definition hdefinition => ?_)
    have hkind : decide (foldedKey definition.kind definition.name = foldedKey kind name) = true →
        isLocalisation definition.kind = false := by
      intro hkey
      have hlower := (Prod.mk.inj (of_decide_eq_true hkey)).1
      rwa [h.index definition hdefinition (beq_iff_eq.mpr hlower)]
    cases hkey : decide (foldedKey definition.kind definition.name = foldedKey kind name) with
    | false =>
      have hentry : decide ((snapshot.indexEntry definition).key = foldedKey kind name) = false :=
        hkey
      simp only [Function.comp_apply, hentry, Bool.and_false, Bool.false_and]
    | true =>
      have hentry : decide ((snapshot.indexEntry definition).key = foldedKey kind name) = true :=
        hkey
      have heffective : snapshot.sourceIsEffective ops
        (snapshot.indexEntry definition).location.document
          (snapshot.indexEntry definition).location.file =
            snapshot.sourceIsEffective ops none (some definition.fileId) := rfl
      simp only [Function.comp_apply, hentry, heffective, hkind hkey, Bool.and_true, Bool.true_and,
        Bool.not_false]
      exact Bool.and_comm _ _
  · rw [overlayCandidates_eq, ← filter_effective_documents, ← flatMap_effective,
      List.filter_flatMap, List.map_flatMap]
    refine List.flatMap_congr fun entry hentry => ?_
    rw [List.filter_map, List.map_map, List.filter_filter]
    refine congrArg₂ _ rfl (List.filter_congr fun definition hdefinition => ?_)
    have hmem := (List.mem_filter.mp hentry).1
    have howner := owner_of_documentFacts hdefinition
    have hsource : snapshot.sourceIsEffective ops
      (snapshot.documentEntry ops definition).location.document
        (snapshot.documentEntry ops definition).location.file =
          snapshot.sourceIsEffective ops (some entry.1) none := by
      change snapshot.sourceIsEffective ops definition.owner.document definition.owner.file = _
      rw [howner]
      rfl
    have hkey : decide ((snapshot.documentEntry ops definition).key = foldedKey kind name) =
        (definition.kind == kind && sameName definition.name name) := by
      rw [Bool.eq_iff_iff, Bool.and_eq_true, beq_iff_eq]
      refine decide_eq_true_iff.trans ⟨fun heq => ?_, ?_⟩
      · obtain ⟨hlower, hname⟩ := Prod.mk.inj heq
        exact ⟨h.documents entry hmem definition hdefinition (beq_iff_eq.mpr hlower),
          beq_iff_eq.mpr hname⟩
      · rintro ⟨rfl, hname⟩
        exact Prod.ext rfl (beq_iff_eq.mp hname)
    simp only [Function.comp_apply, hsource, hkey]
    by_cases hkind : definition.kind = kind
    · rw [hkind, hlocalisation]
      cases snapshot.sourceIsEffective ops (some entry.1) none <;> simp
    · have hfalse : (definition.kind == kind) = false := beq_eq_false_iff_ne.mpr hkind
      simp [hfalse]

theorem directResolve_of_lastMax {kind name : Str} (h : snapshot.OneSpelling ops kind)
    (hlocalisation : isLocalisation kind = false) :
    snapshot.directResolve ops kind name =
      (lastMax fullOrder (snapshot.effectiveCandidates ops kind name)).elim .missing .unique := by
  have hplain : snapshot.preferLanguageOf kind (snapshot.effectiveCandidates ops kind name) =
      snapshot.effectiveCandidates ops kind name := by
    unfold preferLanguageOf
    exact if_neg (by rw [show eqIgnoreAsciiCase kind "localisation".toList =
      false from hlocalisation]; simp)
  rw [directResolve_eq h, hplain, winner_eq]

/-- The winner of the entries is the winner of the candidates. -/
theorem map_candidate_editorWinner {kind : Str} (name : Str)
    (hindex : Workspace.Follows priorities snapshot.index.shards snapshot.index.definitions)
    (h : snapshot.OneSpelling ops kind) (hlocalisation : isLocalisation kind = false) :
    (snapshot.editorWinner ops (snapshot.editorEntries ops) (foldedKey kind name)).map
      EditorDefinition.candidate =
      lastMax fullOrder (snapshot.effectiveCandidates ops kind name) := by
  unfold editorWinner effectiveCandidates
  rw [foldl_better, Option.toList_none, List.nil_append]
  have hrank : EditorDefinition.rank = fun entry : EditorDefinition =>
      toLex (fullOrder entry.candidate, entry.candidate.location.document.isNone) := rfl
  rw [hrank, ← lastMax_map (fun candidate : ResolutionDefinition =>
    toLex (fullOrder candidate, candidate.location.document.isNone)) EditorDefinition.candidate,
    map_candidate_editorEntries hindex h hlocalisation]
  refine lastMax_append_comm (fun candidate hcandidate => ?_) fun candidate hcandidate => ?_
  · obtain ⟨entry, -, hcandidate⟩ := List.mem_flatMap.mp hcandidate
    obtain ⟨definition, hdefinition, rfl⟩ := List.mem_map.mp hcandidate
    have howner := owner_of_documentFacts (List.mem_filter.mp hdefinition).1
    change definition.owner.document.isNone = false
    rw [howner]
    rfl
  · obtain ⟨definition, -, rfl⟩ := List.mem_map.mp hcandidate
    rfl

omit [Std.LawfulEqOrd Path] in
/-- The path of an entry is that of its document or of its file. -/
theorem path_editorEntries {entry other : EditorDefinition}
    (hentry : entry ∈ snapshot.editorEntries ops) (hother : other ∈ snapshot.editorEntries ops)
    (hdocument : entry.location.document = other.location.document)
    (hfile : entry.location.file = other.location.file) :
    entry.location.path = other.location.path := by
  have hpath : ∀ entry ∈ snapshot.editorEntries ops, entry.location.path =
      entry.location.document.elim (entry.location.file.bind fun file =>
        (snapshot.fileOwner file).path)
        fun id => (snapshot.documentInput id).bind (·.path) := by
    intro entry hentry
    rcases List.mem_append.mp hentry with hentry | hentry
    · obtain ⟨definition, -, rfl⟩ := List.mem_map.mp hentry
      rfl
    · obtain ⟨document, -, hentry⟩ := List.mem_flatMap.mp hentry
      obtain ⟨definition, hdefinition, rfl⟩ := List.mem_map.mp hentry
      have hdefinition := (List.mem_filter.mp hdefinition).1
      unfold documentFacts at hdefinition
      cases hdata : snapshot.documentSemantics ops document.1 with
      | none =>
        rw [hdata] at hdefinition
        exact absurd hdefinition List.not_mem_nil
      | some data =>
        rw [hdata] at hdefinition
        obtain ⟨input, hinput, hof⟩ := of_documentSemantics ops snapshot hdata
        change definition.owner.path = definition.owner.document.elim _ _
        rw [hof.definitions definition hdefinition]
        change input.path = (snapshot.documentInput document.1).bind (·.path)
        rw [hinput]
        rfl
  rw [hpath entry hentry, hpath other hother, hdocument, hfile]

omit [Std.LawfulEqOrd Path] in
theorem mem_of_editorWinner {key : Str × Str} {entries : List EditorDefinition}
    {winner : EditorDefinition}
    (h : snapshot.editorWinner ops entries key = some winner) : winner ∈ entries ∧
    winner.key = key := by
  unfold editorWinner at h
  rw [foldl_better] at h
  obtain ⟨hmem, hkeep⟩ := List.mem_filter.mp (lastMax_eq_some.mp h).mem
  rw [Bool.and_eq_true] at hkeep
  exact ⟨hmem, of_decide_eq_true hkeep.2⟩

/-- The active entries of a symbol are at the place of its winner. -/
theorem active_iff {kind name : Str}
    (hindex : Workspace.Follows priorities snapshot.index.shards snapshot.index.definitions)
    (h : snapshot.OneSpelling ops kind) (hlocalisation : isLocalisation kind = false)
    (location : Location) :
    (∃ entry ∈ snapshot.editorDefinitions ops, entry.key = foldedKey kind name ∧
      entry.active = true ∧ entry.location = location) ↔
      ∃ definition, snapshot.directResolve ops kind name = .unique definition ∧
        definitionSelectionLocation definition = location := by
  have hwinner := map_candidate_editorWinner name hindex h hlocalisation
  constructor
  · rintro ⟨active, hactive, hkey, hflag, rfl⟩
    obtain ⟨entry, hentry, rfl⟩ := List.mem_map.mp hactive
    obtain ⟨leader, hleader, hplace⟩ := (Option.any_eq_true _ _).mp hflag
    have hentryKey : entry.key = foldedKey kind name := hkey
    rw [hentryKey] at hleader
    rw [hleader, Option.map_some] at hwinner
    simp only [Bool.and_eq_true, beq_iff_eq] at hplace
    refine ⟨leader.candidate, ?_, ?_⟩
    · rw [directResolve_of_lastMax h hlocalisation, ← hwinner]
      rfl
    · have hpath := path_editorEntries hentry (mem_of_editorWinner hleader).1 hplace.1.1 hplace.1.2
      obtain ⟨⟨hdocument, hfile⟩, hrange⟩ := hplace
      change leader.location = entry.location
      cases hlocation : entry.location
      cases hleaderLocation : leader.location
      rw [hlocation, hleaderLocation] at hdocument hfile hrange hpath
      dsimp only at hdocument hfile hrange hpath
      rw [hdocument, hfile, hrange, hpath]
  · rintro ⟨definition, hdefinition, rfl⟩
    rw [directResolve_of_lastMax h hlocalisation, ← hwinner] at hdefinition
    cases hleader : snapshot.editorWinner ops (snapshot.editorEntries ops)
      (foldedKey kind name) with
    | none =>
      rw [hleader] at hdefinition
      cases hdefinition
    | some leader =>
      rw [hleader] at hdefinition
      obtain rfl := Resolution.unique.inj hdefinition
      obtain ⟨hmem, hkey⟩ := mem_of_editorWinner hleader
      refine ⟨_, List.mem_map.mpr ⟨leader, hmem, rfl⟩, hkey, ?_, rfl⟩
      dsimp only
      rw [hkey, hleader]
      simp

end AnalysisSnapshot

/-! ## The hover -/

/-- The run of one priority in front of a list whose priorities do not rise. -/
theorem takeWhile_priority {candidates : List ResolutionDefinition} {highest : Nat}
    (hsorted : candidates.Pairwise fun a b => candidateKey a ≤ candidateKey b)
    (hle : ∀ candidate ∈ candidates, candidate.priority ≤ highest) :
    (candidates.takeWhile fun candidate => candidate.priority == highest) =
      candidates.filter fun candidate => candidate.priority == highest := by
  induction candidates with
  | nil => rfl
  | cons first rest ih =>
    obtain ⟨hfirst, hrest⟩ := List.pairwise_cons.mp hsorted
    by_cases heq : first.priority = highest
    · rw [List.takeWhile_cons_of_pos (by simpa using heq),
        List.filter_cons_of_pos (by simpa using heq), ih hrest fun candidate hcandidate =>
        hle candidate (List.mem_cons_of_mem _ hcandidate)]
    · -- everything behind is below
      have hnone : (rest.filter fun candidate => candidate.priority == highest) = [] := by
        refine List.filter_eq_nil_iff.mpr fun candidate hcandidate hpriority => ?_
        have hbehind : candidate.priority ≤ first.priority := by
          rcases Prod.Lex.toLex_le_toLex.mp (hfirst candidate hcandidate) with hlt | ⟨heq, -⟩
          · exact (OrderDual.toDual_lt_toDual.mp hlt).le
          · exact (OrderDual.toDual_inj.mp heq).ge
        have hbound := hle first List.mem_cons_self
        have hthis := beq_iff_eq.mp hpriority
        omega
      rw [List.takeWhile_cons_of_neg (by simpa using heq),
        List.filter_cons_of_neg (by simpa using heq), hnone]

theorem effectiveLocalisationCandidate_eq {candidates : List ResolutionDefinition}
    (hsorted : candidates.Pairwise fun a b => candidateKey a ≤ candidateKey b) :
    effectiveLocalisationCandidate candidates = lastMax hoverOrder candidates := by
  cases candidates with
  | nil => rfl
  | cons first rest =>
    have hle : ∀ candidate ∈ first :: rest, candidate.priority ≤ first.priority := by
      intro candidate hcandidate
      rcases List.mem_cons.mp hcandidate with rfl | hcandidate
      · exact le_rfl
      · rcases Prod.Lex.toLex_le_toLex.mp ((List.pairwise_cons.mp hsorted).1 candidate
          hcandidate) with
          hlt | ⟨heq, -⟩
        · exact (OrderDual.toDual_lt_toDual.mp hlt).le
        · exact (OrderDual.toDual_inj.mp heq).ge
    unfold effectiveLocalisationCandidate
    rw [List.head?_cons, Option.bind_some, takeWhile_priority hsorted hle]
    have hrun : ((first :: rest).filter fun candidate =>
      candidate.priority == first.priority).Pairwise
        fun a b => hoverOrder a ≤ hoverOrder b := by
      refine List.Pairwise.imp_of_mem ?_ (hsorted.filter _)
      intro a b ha hb hab
      have ha := beq_iff_eq.mp (List.mem_filter.mp ha).2
      have hb := beq_iff_eq.mp (List.mem_filter.mp hb).2
      rcases Prod.Lex.toLex_le_toLex.mp hab with hlt | ⟨-, hplace⟩
      · have hlt := OrderDual.toDual_lt_toDual.mp hlt
        omega
      · exact Prod.Lex.toLex_le_toLex.mpr (.inr ⟨ha.trans hb.symm, hplace⟩)
    rw [← sortByKey_eq_self hrun, getLast?_sortByKey]
    refine lastMax_filter fun b hb hne => ⟨first, List.mem_cons_self, by simp, ?_⟩
    have hlt := lt_of_le_of_ne (hle b hb) (beq_eq_false_iff_ne.mp hne)
    exact Prod.Lex.toLex_lt_toLex.mpr (.inl hlt)

theorem hoverOrder_lt {a b : ResolutionDefinition} (h : hoverOrder a < hoverOrder b) :
    fullOrder a < fullOrder b := by
  unfold hoverOrder at h
  unfold fullOrder resolutionOrder
  simp only [Prod.Lex.toLex_lt_toLex] at h ⊢
  tauto

/-- Where equal ranges have one selection, the two orders agree. -/
theorem hoverOrder_le_iff {a b : ResolutionDefinition}
    (h : hoverOrder a = hoverOrder b → a.selectionRange.start = b.selectionRange.start) :
    hoverOrder a ≤ hoverOrder b ↔ fullOrder a ≤ fullOrder b := by
  constructor
  · intro hle
    rcases hle.lt_or_eq with hlt | heq
    · exact (hoverOrder_lt hlt).le
    · exact (fullOrder_eq_iff.mpr ⟨heq, h heq⟩).le
  · intro hle
    by_contra hlt
    exact absurd hle (not_le.mpr (hoverOrder_lt (not_le.mp hlt)))

namespace AnalysisSnapshot

/-- The candidates of a hover before they are ordered. -/
def declaredCandidates (kind name : Str) : List ResolutionDefinition :=
  ((snapshot.unsuppressedDocuments ops).flatMap fun entry =>
    ((snapshot.documentFacts ops entry).definitions.filter fun definition =>
      definition.kind == kind && sameName definition.name name).map
        (snapshot.resolutionDefinition ops)) ++
    (snapshot.indexedDefinitions ops kind name).map snapshot.indexDefinition

/-- Whether the source of a candidate takes part. -/
def takesPart (candidate : ResolutionDefinition) : Bool :=
  snapshot.sourceIsEffective ops candidate.location.document candidate.location.file

/-- Every declaration in a shadowed source is below one that takes part: in the preference for
languages, then in priority, path and range. -/
def ShadowedBelow (kind name : Str) : Prop :=
  ∀ shadowed ∈ snapshot.declaredCandidates ops kind name, snapshot.takesPart ops shadowed = false →
    ∃ effective ∈ snapshot.effectiveCandidates ops kind name,
      snapshot.shown kind hoverOrder shadowed < snapshot.shown kind hoverOrder effective

/-- Declarations that take part and have one range have one selection. -/
def OneSelection (kind name : Str) : Prop :=
  ∀ a ∈ snapshot.effectiveCandidates ops kind name,
    ∀ b ∈ snapshot.effectiveCandidates ops kind name, hoverOrder a = hoverOrder b →
    a.selectionRange.start = b.selectionRange.start

variable {ops snapshot}

theorem filter_declaredCandidates (kind name : Str) :
    (snapshot.declaredCandidates ops kind name).filter (snapshot.takesPart ops) =
      snapshot.effectiveCandidates ops kind name := by
  unfold declaredCandidates effectiveCandidates
  rw [List.filter_append]
  refine congrArg₂ _ ?_ ?_
  · rw [overlayCandidates_eq, ← filter_effective_documents, ← flatMap_effective,
      List.filter_flatMap]
    refine List.flatMap_congr fun entry _ => ?_
    rw [List.filter_map, List.filter_filter]
    refine congrArg₂ _ rfl (List.filter_congr fun definition hdefinition => ?_)
    have howner := owner_of_documentFacts hdefinition
    have hsource : snapshot.takesPart ops (snapshot.resolutionDefinition ops definition) =
        snapshot.sourceIsEffective ops (some entry.1) none := by
      change snapshot.sourceIsEffective ops definition.owner.document definition.owner.file = _
      rw [howner]
      rfl
    rw [Function.comp_apply, hsource, Bool.and_comm]
  · unfold indexedDefinitions indexCandidates
    rw [List.filter_map, List.filter_filter]
    refine congrArg₂ _ rfl (List.filter_congr fun definition _ => ?_)
    exact Bool.and_comm _ _

theorem lastMax_declared {kind name : Str} (h : snapshot.ShadowedBelow ops kind name) :
    lastMax (snapshot.shown kind hoverOrder) (snapshot.declaredCandidates ops kind name) =
      lastMax (snapshot.shown kind hoverOrder) (snapshot.effectiveCandidates ops kind name) := by
  rw [← filter_declaredCandidates]
  refine (lastMax_filter fun b hb hshadowed => ?_).symm
  obtain ⟨c, hc, hlt⟩ := h b hb hshadowed
  rw [← filter_declaredCandidates] at hc
  obtain ⟨hc, hpart⟩ := List.mem_filter.mp hc
  exact ⟨c, hc, hpart, hlt⟩

/-- The effective candidate of a hover is the winner. -/
theorem hover_eq {kind name : Str} (hspelling : snapshot.OneSpelling ops kind)
    (hshadowed : snapshot.ShadowedBelow ops kind name)
    (hselection : snapshot.OneSelection ops kind name) :
    (effectiveLocalisationCandidate (snapshot.symbolCandidatesForHover ops kind name)).elim
      .missing .unique =
      snapshot.directResolve ops kind name := by
  have hsorted : (snapshot.symbolCandidatesForHover ops kind name).Pairwise fun a b =>
      candidateKey a ≤ candidateKey b := by
    have hordered : (orderCandidates (snapshot.declaredCandidates ops kind name)).Pairwise
      fun a b =>
        candidateKey a ≤ candidateKey b :=
      (pairwise_sortByKey candidateKey _).sublist (List.destutter_sublist _ _)
    exact hordered.sublist (preferLanguageOf_sublist kind _)
  have hdeclared : lastMax hoverOrder (snapshot.symbolCandidatesForHover ops kind name) =
      lastMax (snapshot.shown kind hoverOrder) (snapshot.declaredCandidates ops kind name) := by
    refine lastMax_prefer_orderCandidates (fun _ _ heq => heq) ?_ kind
    rw [← List.map_flatMap]
    exact priority_of_parts
  have horder : lastMax hoverOrder (snapshot.preferLanguageOf kind
    (snapshot.effectiveCandidates ops kind name)) =
      lastMax fullOrder (snapshot.preferLanguageOf kind
        (snapshot.effectiveCandidates ops kind name)) := by
    have hsub : snapshot.preferLanguageOf kind (snapshot.effectiveCandidates ops kind name) ⊆
        snapshot.effectiveCandidates ops kind name := (preferLanguageOf_sublist kind _).subset
    exact lastMax_congr_order fun a ha b hb => hoverOrder_le_iff
      (hselection a (hsub ha) b (hsub hb))
  rw [directResolve_eq hspelling, winner_eq, effectiveLocalisationCandidate_eq hsorted, hdeclared,
    lastMax_declared hshadowed, ← lastMax_preferLanguageOf, horder]

end AnalysisSnapshot

/-- The winners agree: that of the full semantic facts, unless a template on disk declares the
symbol, the place of the active entries, unless it is a localisation, and the effective candidate of
a hover, unless a shadowed source takes the lead or one range has two selections. -/
theorem resolvers_agree {priorities : Workspace.Priorities} {kind name : Str}
    (hindex : Workspace.Follows priorities snapshot.index.shards snapshot.index.definitions)
    (hspelling : snapshot.OneSpelling ops kind) :
    (snapshot.NoTemplateDefinition ops kind name →
      snapshot.resolveSymbol ops (snapshot.allSemantics ops) kind name =
        snapshot.directResolve ops kind name) ∧
    (isLocalisation kind = false → ∀ location,
      (∃ entry ∈ snapshot.editorDefinitions ops, entry.key = foldedKey kind name ∧
        entry.active = true ∧ entry.location = location) ↔
        ∃ definition, snapshot.directResolve ops kind name = .unique definition ∧
          definitionSelectionLocation definition = location) ∧
    (snapshot.ShadowedBelow ops kind name → snapshot.OneSelection ops kind name →
      (effectiveLocalisationCandidate (snapshot.symbolCandidatesForHover ops kind name)).elim
        .missing .unique =
        snapshot.directResolve ops kind name) := by
  refine ⟨fun htemplate => ?_, fun hlocalisation location => ?_, fun hshadowed hselection => ?_⟩
  · rw [AnalysisSnapshot.resolveSymbol_allSemantics htemplate,
      AnalysisSnapshot.directResolve_eq hspelling]
  · exact AnalysisSnapshot.active_iff hindex hspelling hlocalisation location
  · exact AnalysisSnapshot.hover_eq hspelling hshadowed hselection

end Effective

/-- One file that defines a localisation and a scripted effect. -/
def indexed : AnalysisSnapshot Nat where
  roots := [⟨0, 0, 0⟩]
  sourceFiles := Std.ExtTreeMap.empty.insert 1 ⟨1, 0, 10,
    "common/scripted_effects/a.txt".toList, .merge⟩
  categories := []
  documents := ∅
  index := Workspace.rebuilt
    [⟨1, [⟨"localisation".toList, "heal".toList, 1, .sized 0 12, .sized 0 4, true⟩,
        ⟨"scripted_effect".toList, "heal".toList, 1, .sized 20 12, .sized 20 4, true⟩],
          [], [], [], [],
        0, true⟩] ∅
  referenceSources := []
  fileStates := ∅
  documentInput _ := none
  fileInput _ := none
  previewLanguage := "english".toList

/-- The localisation has a winner and no active entry. -/
theorem resolvers_agree_localisation :
    ¬ ∀ kind name : Str, (∃ definition, indexed.resolveSymbol numbered
        (indexed.allSemantics numbered) kind name = .unique definition) →
      ∃ entry ∈ indexed.editorDefinitions numbered,
        entry.key = foldedKey kind name ∧ entry.active = true := by
  intro h
  obtain ⟨entry, hentry, hkey, -⟩ := h "localisation".toList "heal".toList
    ⟨⟨⟨none, some 1, some "common/scripted_effects/a.txt".toList, ⟨0, 12, by decide⟩⟩,
      ⟨0, 4, by decide⟩, 0⟩, by decide +kernel⟩
  have hnone : (indexed.editorDefinitions numbered).all (fun entry =>
      decide (entry.key ≠ foldedKey "localisation".toList "heal".toList)) =
        true := by decide +kernel
  exact of_decide_eq_true (List.all_eq_true.mp hnone entry hentry) hkey

/-- A file of the game that a mod replaces, one that it adds, and one whose text is open: each
defines the effect. -/
def modded : AnalysisSnapshot Nat where
  roots := [⟨0, 0, 0⟩, ⟨1, 1, 1⟩]
  sourceFiles := (((Std.ExtTreeMap.empty.insert 1
    ⟨1, 0, 10, "common/scripted_effects/a.txt".toList, .replaceByRelativePath⟩).insert 2
      ⟨2, 1, 11, "common/scripted_effects/a.txt".toList, .replaceByRelativePath⟩).insert 3
        ⟨3, 1, 12, "common/scripted_effects/b.txt".toList, .merge⟩).insert 4
          ⟨4, 1, 13, "common/scripted_effects/c.txt".toList, .merge⟩
  categories := []
  documents := Std.ExtTreeMap.empty.insert "file:///c".toList ⟨.overlay, some 13⟩
  index := Workspace.rebuilt
    (([1, 2, 3, 4] : List Nat).map fun fileId =>
      ⟨fileId, [⟨"scripted_effect".toList, "heal".toList, fileId, .sized 20 12, .sized 20 4, true⟩],
        [], [], [], [], 0, true⟩) ∅
  referenceSources := []
  fileStates := ∅
  documentInput _ := some
    { path := some "common/scripted_effects/c.txt".toList
      source := []
      format := .script
      hir := some { definitions := [⟨"scripted_effect".toList, "Heal".toList, .sized 40 12,
        .sized 40 4⟩] } }
  fileInput _ := none
  previewLanguage := "english".toList


/-- The definition in the open text. -/
def healed : ResolutionDefinition :=
  ⟨⟨some "file:///c".toList, some 4, some "common/scripted_effects/c.txt".toList, .sized 40 12⟩,
    .sized 40 4, 1⟩

/-- All of them pick the open text, before the files of the mod and the one that it replaces. -/
theorem resolvers_agree_modded :
    modded.resolveSymbol numbered
        (modded.allSemantics numbered) "scripted_effect".toList "heal".toList =
      .unique healed ∧
    (∃ entry ∈ modded.editorDefinitions numbered,
      entry.key = foldedKey "scripted_effect".toList "heal".toList ∧ entry.active = true ∧
        entry.location = definitionSelectionLocation healed) ∧
    (effectiveLocalisationCandidate (modded.symbolCandidatesForHover numbered
        "scripted_effect".toList "heal".toList)).elim .missing .unique =
          Resolution.unique healed := by
  have hindex : Workspace.Follows ∅ modded.index.shards modded.index.definitions :=
    Workspace.rebuilt_follows _
  have hspelling : modded.OneSpelling numbered "scripted_effect".toList := by
    constructor
    · have hkinds : (modded.overlayDocuments.all fun entry =>
          (modded.documentFacts numbered entry).definitions.all fun definition =>
            definition.kind == "scripted_effect".toList) = true := by decide +kernel
      intro entry hentry definition hdefinition _
      exact beq_iff_eq.mp (List.all_eq_true.mp (List.all_eq_true.mp hkinds entry hentry)
        definition hdefinition)
    · have hkinds : (modded.index.definitionsIter.all fun definition =>
          definition.kind == "scripted_effect".toList) = true := by decide +kernel
      intro definition hdefinition _
      exact beq_iff_eq.mp (List.all_eq_true.mp hkinds definition hdefinition)
  have hdirect : modded.directResolve numbered "scripted_effect".toList "heal".toList =
      .unique healed := by decide +kernel
  have hagree := @resolvers_agree Nat _ _ _ numbered modded ∅ _ "heal".toList hindex
    hspelling
  rw [hdirect] at hagree
  refine ⟨hagree.1 ?_, (hagree.2.1 (by decide +kernel) _).mpr ⟨healed, rfl, rfl⟩, hagree.2.2 ?_ ?_⟩
  · intro fileId _ definition hdefinition
    have hnone : modded.fileDefinitions numbered (fun _ => true) fileId = [] := by
      unfold AnalysisSnapshot.fileDefinitions AnalysisSnapshot.takeFile
      split_ifs <;> rfl
    rw [hnone] at hdefinition
    exact absurd hdefinition List.not_mem_nil
  · -- what the mod replaces has a lower priority
    have hbelow : ((modded.declaredCandidates numbered "scripted_effect".toList
        "heal".toList).all fun candidate => modded.takesPart numbered candidate ||
          candidate.priority == 0) = true := by decide +kernel
    have hhealed : ((modded.effectiveCandidates numbered "scripted_effect".toList
        "heal".toList).head?) = some healed := by decide +kernel
    intro shadowed hmem hpart
    have hlow := List.all_eq_true.mp hbelow shadowed hmem
    rw [hpart, Bool.false_or, beq_iff_eq] at hlow
    refine ⟨healed, List.mem_of_head? hhealed, Prod.Lex.toLex_lt_toLex.mpr (.inr ⟨rfl, ?_⟩)⟩
    exact Prod.Lex.toLex_lt_toLex.mpr (.inl (hlow ▸ Nat.one_pos))
  · -- no two of those that take part are at one place
    have hapart : ((modded.effectiveCandidates numbered "scripted_effect".toList
        "heal".toList).map fun candidate => (candidate.location.path,
          candidate.selectionRange.start)) = [(some "common/scripted_effects/c.txt".toList, 40),
          (some "common/scripted_effects/a.txt".toList, 20),
            (some "common/scripted_effects/b.txt".toList, 20)] := by decide +kernel
    intro a ha b hb heq
    have hpath : a.location.path.getD [] = b.location.path.getD [] := by
      unfold hoverOrder at heq
      simp only [toLex_inj, Prod.mk.injEq] at heq
      exact heq.2.1
    have ha := hapart ▸ List.mem_map_of_mem (f := fun candidate : ResolutionDefinition =>
      (candidate.location.path, candidate.selectionRange.start)) ha
    have hb := hapart ▸ List.mem_map_of_mem (f := fun candidate : ResolutionDefinition =>
      (candidate.location.path, candidate.selectionRange.start)) hb
    simp only [List.mem_cons, List.not_mem_nil, or_false, Prod.mk.injEq] at ha hb
    rcases ha with ⟨ha, ha'⟩ | ⟨ha, ha'⟩ | ⟨ha, ha'⟩ <;> rcases hb with
      ⟨hb, hb'⟩ | ⟨hb, hb'⟩ | ⟨hb, hb'⟩ <;>
      rw [ha', hb'] <;> rw [ha, hb] at hpath <;> exact absurd hpath (by decide)

end ParadoxCode.Ide
