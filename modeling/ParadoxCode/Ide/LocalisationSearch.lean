import ParadoxCode.Ide.Winners
import ParadoxCode.Index.EntryMaps
import ParadoxCode.Lib.Paging

/-!
# The search for localisation keys

`localisation.rs` of the ide crate: one loop over the definitions of the index drops the keys that
it has seen, resolves the others, tests their values and counts the pages. A page is a window of all
the hits (`searchPage_eq`). The keys that have been seen are compared as they are spelled, and
everything else is compared without case: the hits are distinct exactly if no listed key has two
spellings. Nothing is cancelled.
-/

namespace ParadoxCode.Ide

open Engine.Store (Definition)
open Format (eqIgnoreAsciiCase)
open Index (LocalisationPreview LocalisationPreviewMap)
open Paging
open Workspace.SourceResolution (PathOperations)

/-! ## The search -/

inductive LocalisationKeyMatch where
  | substring
  | exact
  | anchored
  deriving DecidableEq

/-- `LocalisationKeyMatch::matches`. -/
def LocalisationKeyMatch.accepts (keyMatch : LocalisationKeyMatch) (name query : Str) : Bool :=
  let name := toAsciiLowercase name
  let query := toAsciiLowercase query
  match keyMatch with
  | substring => decide (query <:+: name)
  | exact => name == query
  | anchored => query.isPrefixOf name

structure LocalisationSearchHit where
  key : Str
  language : Option Str
  value : Option Str
  fileId : Nat
  range : TextRange
  deriving DecidableEq

structure LocalisationSearchResult where
  hits : List LocalisationSearchHit
  truncated : Bool
  deriving DecidableEq

/-- What is searched for. -/
structure LocalisationQuery where
  key : Option Str
  value : Option Str
  keyMatch : LocalisationKeyMatch
  deriving DecidableEq

/-- `AnalysisSnapshot` with the previews that it serves. -/
structure LocalisationSnapshot (Path : Type) [Ord Path] extends toSnapshot :
    AnalysisSnapshot Path where
  localisationPreviews : LocalisationPreviewMap

/-- The variables of the loop. -/
structure SearchState where
  matched : Nat := 0
  hits : List LocalisationSearchHit := []
  seenKeys : List Str := []

section Search

variable {Path : Type} [Ord Path] [Std.TransOrd Path]
  (ops : PathOperations Path) (snapshot : LocalisationSnapshot Path) (query : LocalisationQuery)

namespace LocalisationSnapshot

/-- Whether the value filter passes over a preview. -/
def failsValue (preview : Option LocalisationPreview) : Bool :=
  (query.value.map toAsciiLowercase).any fun text =>
    !preview.any fun preview => decide (text <:+: toAsciiLowercase preview.value)

/-- The hit of a key at a winner. -/
def hitAt (key : Str) (winner : ResolutionDefinition) (fileId : Nat)
    (preview : Option LocalisationPreview) : LocalisationSearchHit where
  key := key
  language := (preview.bind LocalisationPreview.language).or
    ((localisationLanguage winner.location.path).map fun language => "l_".toList ++ language)
  value := preview.map LocalisationPreview.value
  fileId := fileId
  range := winner.location.range

/-- The loop of `localisation_search_page_with_cancellation`. -/
def searchLoop (offset limit : Nat) : List Definition → SearchState → LocalisationSearchResult
  | [], state => ⟨state.hits, false⟩
  | definition :: rest, state =>
    if (!definition.active || !eqIgnoreAsciiCase definition.kind "localisation".toList) = true then
      searchLoop offset limit rest state
    else if (query.key.any fun key => !query.keyMatch.accepts definition.name key) = true then
      searchLoop offset limit rest state
    else if definition.name ∈ state.seenKeys then searchLoop offset limit rest state
    else
      let state := { state with seenKeys := definition.name :: state.seenKeys }
      match effectiveLocalisationCandidate
          (snapshot.symbolCandidatesForHover ops "localisation".toList definition.name) with
      | none => searchLoop offset limit rest state
      | some winner =>
        match winner.location.file with
        | none => searchLoop offset limit rest state
        | some fileId =>
          let preview := snapshot.localisationPreviews.get (fileId, winner.location.range)
          if failsValue query preview = true then searchLoop offset limit rest state
          else
            let state := { state with matched := state.matched + 1 }
            if state.matched ≤ offset then searchLoop offset limit rest state
            else if state.hits.length = limit then ⟨state.hits, true⟩
            else
              searchLoop offset limit rest
                { state with hits := state.hits ++ [hitAt definition.name winner fileId preview] }

/-- `localisation_search_page_with_cancellation`. -/
def searchPage (offset limit : Nat) : LocalisationSearchResult :=
  snapshot.searchLoop ops query offset limit snapshot.index.definitionsIter {}

/-! ## All hits -/

/-- Whether a definition is looked at. -/
def sought (definition : Definition) : Bool :=
  definition.active && eqIgnoreAsciiCase definition.kind "localisation".toList &&
    query.key.all fun key => query.keyMatch.accepts definition.name key

/-- The hit of a key, if it has one. -/
def hitFor (name : Str) : Option LocalisationSearchHit := do
  let winner ← effectiveLocalisationCandidate
    (snapshot.symbolCandidatesForHover ops "localisation".toList name)
  let fileId ← winner.location.file
  let preview := snapshot.localisationPreviews.get (fileId, winner.location.range)
  if failsValue query preview = true then none else some (hitAt name winner fileId preview)

/-- The hits of the keys that are new. -/
def hitsFrom (seenKeys : List Str) : List Definition → List LocalisationSearchHit
  | [] => []
  | definition :: rest =>
    if sought query definition = true ∧ definition.name ∉ seenKeys then
      (snapshot.hitFor ops query definition.name).toList ++
        hitsFrom (definition.name :: seenKeys) rest
    else hitsFrom seenKeys rest

/-- All hits in the order of the index. -/
def allHits : List LocalisationSearchHit := snapshot.hitsFrom ops query []
    snapshot.index.definitionsIter

variable {ops snapshot query}

theorem sought_iff {definition : Definition} : sought query definition = true ↔
    ¬ (!definition.active || !eqIgnoreAsciiCase definition.kind "localisation".toList) = true ∧
      ¬ (query.key.any fun key => !query.keyMatch.accepts definition.name key) = true := by
  unfold sought
  cases query.key <;> simp

theorem hitFor_of_winner {name : Str} {winner : ResolutionDefinition}
    (h : effectiveLocalisationCandidate
      (snapshot.symbolCandidatesForHover ops "localisation".toList name) =
      some winner) :
    snapshot.hitFor ops query name = winner.location.file.bind fun fileId =>
      if failsValue query (snapshot.localisationPreviews.get (fileId, winner.location.range)) =
        true then none
      else some
        (hitAt name winner fileId
        (snapshot.localisationPreviews.get (fileId, winner.location.range))) := by
  unfold hitFor
  rw [h]
  rfl

theorem hitFor_of_none {name : Str}
    (h : effectiveLocalisationCandidate
      (snapshot.symbolCandidatesForHover ops "localisation".toList name) = none) :
    snapshot.hitFor ops query name = none := by
  unfold hitFor
  rw [h]
  rfl

/-- The loop lists what of the hits is left of the page. -/
theorem searchLoop_eq {offset limit : Nat} (definitions : List Definition) : ∀ state : SearchState,
    state.hits.length = state.matched - offset → state.hits.length ≤ limit →
      snapshot.searchLoop ops query offset limit definitions state =
        ⟨state.hits ++ page (offset - state.matched) (limit - state.hits.length)
            (snapshot.hitsFrom ops query state.seenKeys definitions),
          decide (Truncated (offset - state.matched) (limit - state.hits.length)
            (snapshot.hitsFrom ops query state.seenKeys definitions))⟩ := by
  induction definitions with
  | nil =>
    intro state _ _
    simp [searchLoop, hitsFrom, page, Truncated]
  | cons definition rest ih =>
    intro state hlength hlimit
    have hskip : ∀ hits, hits = snapshot.hitsFrom ops query state.seenKeys rest →
        snapshot.searchLoop ops query offset limit rest state =
          ⟨state.hits ++ page (offset - state.matched) (limit - state.hits.length) hits,
            decide (Truncated (offset - state.matched) (limit - state.hits.length) hits)⟩ :=
      fun hits hhits => by rw [hhits, ih state hlength hlimit]
    unfold searchLoop
    by_cases hkind : (!definition.active || !eqIgnoreAsciiCase definition.kind
      "localisation".toList) = true
    · rw [if_pos hkind]
      refine hskip _ ?_
      rw [hitsFrom, if_neg fun h => (sought_iff.mp h.1).1 hkind]
    rw [if_neg hkind]
    by_cases hkey : (query.key.any fun key => !query.keyMatch.accepts definition.name key) = true
    · rw [if_pos hkey]
      refine hskip _ ?_
      rw [hitsFrom, if_neg fun h => (sought_iff.mp h.1).2 hkey]
    rw [if_neg hkey]
    by_cases hseen : definition.name ∈ state.seenKeys
    · rw [if_pos hseen]
      refine hskip _ ?_
      rw [hitsFrom, if_neg fun h => h.2 hseen]
    rw [if_neg hseen, hitsFrom, if_pos ⟨sought_iff.mpr ⟨hkind, hkey⟩, hseen⟩]
    dsimp only
    cases hwinner : effectiveLocalisationCandidate
        (snapshot.symbolCandidatesForHover ops "localisation".toList definition.name) with
    | none =>
      rw [hitFor_of_none hwinner]
      exact ih { state with seenKeys := definition.name :: state.seenKeys } hlength hlimit
    | some winner =>
      rw [hitFor_of_winner hwinner]
      dsimp only
      cases hfile : winner.location.file with
      | none => exact ih { state with seenKeys := definition.name :: state.seenKeys } hlength hlimit
      | some fileId =>
        rw [Option.bind_some]
        dsimp only
        by_cases hvalue : failsValue query (snapshot.localisationPreviews.get
          (fileId, winner.location.range)) = true
        · rw [if_pos hvalue, if_pos hvalue]
          exact ih { state with seenKeys := definition.name :: state.seenKeys } hlength hlimit
        rw [if_neg hvalue, if_neg hvalue, Option.toList_some, List.singleton_append]
        by_cases hbefore : state.matched + 1 ≤ offset
        · -- the hit is on a page before this one
          have hoffset : 0 < offset - state.matched := by omega
          rw [if_pos hbefore, ih ⟨state.matched + 1, state.hits, definition.name :: state.seenKeys⟩
            (by dsimp only; omega) hlimit, page_cons_before hoffset]
          simp only [truncated_cons_before hoffset, Nat.sub_sub]
        · have hoffset : offset - state.matched = 0 := by omega
          rw [if_neg hbefore, hoffset]
          by_cases hfull : state.hits.length = limit
          · rw [if_pos hfull, hfull, Nat.sub_self, decide_eq_true truncated_cons_behind]
            simp [page]
          · have hfree : 0 < limit - state.hits.length := by omega
            rw [if_neg hfull, ih ⟨state.matched + 1, state.hits ++ [_],
              definition.name :: state.seenKeys⟩
              (by simp only [List.length_append, List.length_singleton]; omega)
              (by simp only [List.length_append, List.length_singleton]; omega),
                page_cons_taken hfree]
            simp only [truncated_cons_taken hfree, List.length_append, List.length_singleton,
              List.append_assoc, List.singleton_append, Nat.sub_sub,
              show offset - (state.matched + 1) = 0 by omega]

/-- A page is a window of all hits. -/
theorem searchPage_eq (offset limit : Nat) :
    snapshot.searchPage ops query offset limit =
      ⟨page offset limit (snapshot.allHits ops query),
        decide (Truncated offset limit (snapshot.allHits ops query))⟩ :=
  searchLoop_eq _ {} (Nat.zero_sub _).symm (Nat.zero_le _)

/-! ## Distinct keys -/

theorem mem_hitsFrom {hit : LocalisationSearchHit} {definitions : List Definition} :
    ∀ {seenKeys : List Str},
    hit ∈ snapshot.hitsFrom ops query seenKeys definitions ↔
      ∃ definition ∈ definitions, sought query definition = true ∧ definition.name ∉ seenKeys ∧
        snapshot.hitFor ops query definition.name = some hit := by
  induction definitions with
  | nil => simp [hitsFrom]
  | cons first rest ih =>
    intro seenKeys
    unfold hitsFrom
    split_ifs with hfirst
    · rw [List.mem_append, Option.mem_toList, ih]
      constructor
      · rintro (hhit | ⟨definition, hmem, hsought, hseen, hhit⟩)
        · exact ⟨first, List.mem_cons_self, hfirst.1, hfirst.2, hhit⟩
        · exact ⟨definition, List.mem_cons_of_mem _ hmem, hsought,
            fun h => hseen (List.mem_cons_of_mem _ h), hhit⟩
      · rintro ⟨definition, hmem, hsought, hseen, hhit⟩
        by_cases hname : definition.name = first.name
        · rw [hname] at hhit
          exact .inl hhit
        · refine .inr ⟨definition, ?_, hsought, fun h => ?_, hhit⟩
          · exact (List.mem_cons.mp hmem).resolve_left fun h => hname (congrArg _ h)
          · exact (List.mem_cons.mp h).elim hname hseen
    · rw [ih]
      constructor
      · rintro ⟨definition, hmem, h⟩
        exact ⟨definition, List.mem_cons_of_mem _ hmem, h⟩
      · rintro ⟨definition, hmem, hsought, hseen, hhit⟩
        refine ⟨definition, (List.mem_cons.mp hmem).resolve_left fun h => ?_, hsought, hseen, hhit⟩
        rw [h] at hsought hseen
        exact hfirst ⟨hsought, hseen⟩

theorem key_of_hitFor {name : Str} {hit : LocalisationSearchHit}
    (h : snapshot.hitFor ops query name = some hit) : hit.key = name := by
  cases hwinner : effectiveLocalisationCandidate
      (snapshot.symbolCandidatesForHover ops "localisation".toList name) with
  | none =>
    rw [hitFor_of_none hwinner] at h
    cases h
  | some winner =>
    rw [hitFor_of_winner hwinner, Option.bind_eq_some_iff] at h
    obtain ⟨fileId, -, h⟩ := h
    split_ifs at h
    rw [← Option.some.inj h]
    rfl

/-- The keys of the hits are distinct as they are spelled. -/
theorem hitsFrom_pairwise (definitions : List Definition) : ∀ seenKeys : List Str,
    (snapshot.hitsFrom ops query seenKeys definitions).Pairwise fun a b => a.key ≠ b.key := by
  induction definitions with
  | nil => exact fun _ => List.Pairwise.nil
  | cons first rest ih =>
    intro seenKeys
    unfold hitsFrom
    split_ifs
    · refine List.pairwise_append.mpr ⟨?_, ih _, ?_⟩
      · cases snapshot.hitFor ops query first.name with
        | none => exact List.Pairwise.nil
        | some hit => exact List.pairwise_singleton _ _
      · intro a ha b hb hkey
        obtain ⟨definition, -, -, hseen, hb⟩ := mem_hitsFrom.mp hb
        rw [key_of_hitFor (Option.mem_toList.mp ha), key_of_hitFor hb] at hkey
        exact hseen (hkey ▸ List.mem_cons_self)
    · exact ih _

/-- Whether a key has a hit: its winner is in a file and passes the value filter. -/
def Listed (ops : PathOperations Path) (snapshot : LocalisationSnapshot Path)
    (query : LocalisationQuery) (name : Str) : Prop :=
  ∃ winner, effectiveLocalisationCandidate
      (snapshot.symbolCandidatesForHover ops "localisation".toList name) = some winner ∧
    ∃ fileId, winner.location.file = some fileId ∧
      ¬ failsValue query (snapshot.localisationPreviews.get (fileId, winner.location.range)) = true

theorem listed_iff {name : Str} : Listed ops snapshot query name ↔
    ∃ hit, snapshot.hitFor ops query name = some hit := by
  constructor
  · rintro ⟨winner, hwinner, fileId, hfile, hvalue⟩
    rw [hitFor_of_winner hwinner, hfile, Option.bind_some, if_neg hvalue]
    exact ⟨_, rfl⟩
  · rintro ⟨hit, hhit⟩
    cases hwinner : effectiveLocalisationCandidate
        (snapshot.symbolCandidatesForHover ops "localisation".toList name) with
    | none =>
      rw [hitFor_of_none hwinner] at hhit
      cases hhit
    | some winner =>
      rw [hitFor_of_winner hwinner, Option.bind_eq_some_iff] at hhit
      obtain ⟨fileId, hfile, hhit⟩ := hhit
      refine ⟨winner, hwinner, fileId, hfile, fun hvalue => ?_⟩
      rw [if_pos hvalue] at hhit
      cases hhit

/-- Candidates are collected without case. -/
theorem symbolCandidatesForHover_congr {left right : Str}
    (h : toAsciiLowercase left = toAsciiLowercase right) :
    snapshot.symbolCandidatesForHover ops "localisation".toList left =
      snapshot.symbolCandidatesForHover ops "localisation".toList right := by
  have hindexed : snapshot.indexedDefinitions ops "localisation".toList left =
      snapshot.indexedDefinitions ops "localisation".toList right := by
    unfold AnalysisSnapshot.indexedDefinitions Workspace.WorkspaceIndex.definitionsFor
      Workspace.WorkspaceIndex.definitionBucket Workspace.lookupName
    rw [h]
  have hsame : ∀ name, sameName name left = sameName name right :=
    sameName_congr (sameName_iff.mpr h)
  unfold AnalysisSnapshot.symbolCandidatesForHover
  simp only [hindexed, hsame]

theorem Listed.congr {left right : Str} (h : toAsciiLowercase left = toAsciiLowercase right)
    (hlisted : Listed ops snapshot query left) : Listed ops snapshot query right := by
  unfold Listed at *
  rwa [← symbolCandidatesForHover_congr h]

/-! ## Pages without loss -/

/-- The search lists each key once and pages without loss. -/
structure Lossless (ops : PathOperations Path) (snapshot : LocalisationSnapshot Path)
    (query : LocalisationQuery) : Prop where
  distinct : ∀ offset limit : Nat, (snapshot.searchPage ops query offset limit).hits.Pairwise
    fun a b =>
    toAsciiLowercase a.key ≠ toAsciiLowercase b.key
  front : ∀ limit n : Nat, (List.range n).flatMap
      (fun i => (snapshot.searchPage ops query (i * limit) limit).hits) =
    (snapshot.searchPage ops query 0 (n * limit)).hits
  whole : ∀ limit n total : Nat, (snapshot.searchPage ops query (n * limit) limit).truncated =
    false → (snapshot.searchPage ops query 0 total).truncated = false →
      (List.range (n + 1)).flatMap
        (fun i => (snapshot.searchPage ops query (i * limit) limit).hits) =
        (snapshot.searchPage ops query 0 total).hits
  ends : ∀ limit : Nat, 0 < limit → ∃ n,
    (snapshot.searchPage ops query (n * limit) limit).truncated = false
  truncated : ∀ offset limit : Nat, (snapshot.searchPage ops query offset limit).truncated = true ↔
    (snapshot.searchPage ops query (offset + limit) 1).hits ≠ []
  exact : query.keyMatch = .exact → query.key.isSome = true → ∀ offset limit : Nat,
    (snapshot.searchPage ops query offset limit).hits.length ≤ 1

/-- No listed key has two spellings among the definitions that are looked at. -/
def OneSpelling (ops : PathOperations Path) (snapshot : LocalisationSnapshot Path)
    (query : LocalisationQuery) : Prop :=
  ∀ a ∈ snapshot.index.definitionsIter, ∀ b ∈ snapshot.index.definitionsIter,
    sought query a = true → sought query b = true → Listed ops snapshot query a.name →
      toAsciiLowercase a.name = toAsciiLowercase b.name → a.name = b.name

theorem mem_allHits {hit : LocalisationSearchHit} : hit ∈ snapshot.allHits ops query ↔
    ∃ definition ∈ snapshot.index.definitionsIter, sought query definition = true ∧
      snapshot.hitFor ops query definition.name = some hit := by
  unfold allHits
  simp only [mem_hitsFrom, List.not_mem_nil, not_false_eq_true, true_and]

theorem allHits_pairwise_iff :
    ((snapshot.allHits ops query).Pairwise fun a b => toAsciiLowercase a.key ≠
      toAsciiLowercase b.key) ↔ OneSpelling ops snapshot query := by
  constructor
  · intro h a ha b hb hsoughta hsoughtb hlisted hfolded
    obtain ⟨hita, hhita⟩ := listed_iff.mp hlisted
    obtain ⟨hitb, hhitb⟩ := listed_iff.mp (hlisted.congr hfolded)
    have hkeya := key_of_hitFor hhita
    have hkeyb := key_of_hitFor hhitb
    by_contra hname
    have hne : hita ≠ hitb := fun heq => hname (by rw [← hkeya, ← hkeyb, heq])
    have : Std.Symm fun a b : LocalisationSearchHit =>
      toAsciiLowercase a.key ≠ toAsciiLowercase b.key :=
      ⟨fun _ _ h => h.symm⟩
    refine h.forall (mem_allHits.mpr ⟨a, ha, hsoughta, hhita⟩)
      (mem_allHits.mpr ⟨b, hb, hsoughtb, hhitb⟩) hne ?_
    rw [hkeya, hkeyb, hfolded]
  · intro h
    refine (hitsFrom_pairwise _ _).imp_of_mem fun {hita hitb} ha hb hkey hfolded => hkey ?_
    obtain ⟨a, ha, hsoughta, hhita⟩ := mem_allHits.mp ha
    obtain ⟨b, hb, hsoughtb, hhitb⟩ := mem_allHits.mp hb
    rw [key_of_hitFor hhita, key_of_hitFor hhitb] at hfolded ⊢
    exact h a ha b hb hsoughta hsoughtb (listed_iff.mpr ⟨hita, hhita⟩) hfolded

/-- An exact filter leaves one key. -/
theorem length_le_one_of_exact {hits : List LocalisationSearchHit}
    (hmatch : query.keyMatch = .exact)
    (hkey : query.key.isSome = true) (hsub : hits.Sublist (snapshot.allHits ops query))
    (hdistinct : hits.Pairwise fun a b => toAsciiLowercase a.key ≠ toAsciiLowercase b.key) :
    hits.length ≤ 1 := by
  obtain ⟨key, hkey⟩ := Option.isSome_iff_exists.mp hkey
  have hfolded : ∀ hit ∈ hits, toAsciiLowercase hit.key = toAsciiLowercase key := by
    intro hit hhit
    obtain ⟨definition, -, hsought, hhit⟩ := mem_allHits.mp (hsub.subset hhit)
    rw [key_of_hitFor hhit]
    unfold sought at hsought
    rw [hkey, hmatch] at hsought
    exact beq_iff_eq.mp (Bool.and_eq_true_iff.mp hsought).2
  match hits, hdistinct, hfolded with
  | [], _, _ => exact Nat.zero_le _
  | [_], _, _ => exact le_rfl
  | a :: b :: _, hdistinct, hfolded =>
    refine absurd ?_ (List.rel_of_pairwise_cons hdistinct List.mem_cons_self)
    rw [hfolded a List.mem_cons_self, hfolded b (List.mem_cons_of_mem _ List.mem_cons_self)]

/-- The search is lossless exactly if no listed key has two spellings. -/
theorem lossless_iff (ops : PathOperations Path) (snapshot : LocalisationSnapshot Path)
    (query : LocalisationQuery) : Lossless ops snapshot query ↔ OneSpelling ops snapshot query := by
  rw [← allHits_pairwise_iff]
  constructor
  · intro h
    have hthis := h.distinct 0 (snapshot.allHits ops query).length
    rw [searchPage_eq, page_zero, List.take_length] at hthis
    exact hthis
  · intro h
    constructor
    · intro offset limit
      rw [searchPage_eq]
      exact h.sublist (page_sublist _ _ _)
    · intro limit n
      simp only [searchPage_eq]
      rw [flatMap_page, page_zero]
    · intro limit n total hlast htotal
      simp only [searchPage_eq, decide_eq_false_iff_not] at hlast htotal ⊢
      rw [flatMap_page_of_not_truncated hlast, page_zero, List.take_of_length_le]
      unfold Truncated at htotal
      omega
    · intro limit hlimit
      obtain ⟨n, hn⟩ := exists_not_truncated hlimit (snapshot.allHits ops query)
      refine ⟨n, ?_⟩
      rw [searchPage_eq]
      exact decide_eq_false hn
    · intro offset limit
      rw [searchPage_eq, searchPage_eq, decide_eq_true_iff]
      exact truncated_iff_page_ne_nil
    · intro hmatch hkey offset limit
      rw [searchPage_eq]
      exact length_le_one_of_exact hmatch hkey (page_sublist _ _ _) (h.sublist (page_sublist _ _ _))

end LocalisationSnapshot

end Search

/-- A file that declares keys. -/
def declaring (fileId : Nat) (names : List String) : Engine.Store.FileIndexShard :=
  { Engine.Store.FileIndexShard.empty fileId with
    definitions := names.zipIdx.map fun (name, place) =>
      ⟨"localisation".toList, name.toList, fileId, .sized (10 * place) 8,
        .sized (10 * place) 3, true⟩ }

/-- A file with two spellings of a key. -/
def twice : LocalisationSnapshot Nat where
  roots := [⟨0, 0, 0⟩]
  sourceFiles := Std.ExtTreeMap.empty.insert 1 ⟨1, 0, 10,
    "localisation/a_l_english.yml".toList, .merge⟩
  categories := []
  documents := ∅
  index := Workspace.rebuilt [declaring 1 ["Foo", "foo"]] ∅
  referenceSources := []
  fileStates := ∅
  documentInput _ := none
  fileInput _ := none
  previewLanguage := "english".toList
  localisationPreviews := {}

/-- The key is listed in both spellings, and an exact lookup has two hits. -/
theorem not_lossless_twice : ¬ LocalisationSnapshot.Lossless
    Workspace.SourceResolution.numbered twice
    ⟨some "foo".toList, none, .exact⟩ := by
  intro h
  have hthis := h.exact rfl rfl 0 2
  revert hthis
  decide +kernel

/-- Two languages with the key in one spelling, and another key in two. -/
def translated : LocalisationSnapshot Nat :=
  { twice with
    sourceFiles := twice.sourceFiles.insert 2 ⟨2, 0, 20,
      "localisation/a_l_german.yml".toList, .merge⟩
    index := Workspace.rebuilt [declaring 1 ["Foo", "Bar", "bar"], declaring 2 ["Foo", "BAR"]] ∅ }

theorem lossless_translated : LocalisationSnapshot.Lossless Workspace.SourceResolution.numbered
    translated ⟨some "foo".toList, none, .exact⟩ := by
  refine (LocalisationSnapshot.lossless_iff Workspace.SourceResolution.numbered translated _).mpr ?_
  have hspelled : (translated.index.definitionsIter.all fun definition =>
      !LocalisationSnapshot.sought ⟨some "foo".toList, none, .exact⟩ definition ||
        definition.name == "Foo".toList) = true := by
    decide +kernel
  have hname : ∀ definition ∈ translated.index.definitionsIter,
      LocalisationSnapshot.sought ⟨some "foo".toList, none, .exact⟩ definition = true →
        definition.name = "Foo".toList := by
    intro definition hmem hsought
    have hone := List.all_eq_true.mp hspelled definition hmem
    rw [hsought] at hone
    exact beq_iff_eq.mp hone
  intro a ha b hb hsoughta hsoughtb _ _
  rw [hname a ha hsoughta, hname b hb hsoughtb]

end ParadoxCode.Ide
