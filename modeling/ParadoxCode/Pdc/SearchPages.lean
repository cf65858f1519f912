import Mathlib.Data.Char
import Mathlib.Data.List.Lex
import Mathlib.Data.Prod.Lex
import Mathlib.Order.WithBot
import ParadoxCode.Lib.Buckets
import ParadoxCode.Lib.Paging
import ParadoxCode.Lib.StableSort
import ParadoxCode.Text

/-!
# The pages of the search panel

`requests/search.rs`: an editor search answers with a page of its groups and with the offset of the
next page. A page has room for 50 groups and 200 entries, and a group shows 100 entries. Both loops
that fill pages take a front of the groups (`pageLoop_groups`, `localisationLoop_groups`), at least
one of them, so that the client that follows the offsets sees every group once. Nothing is
cancelled.
-/

namespace ParadoxCode.Pdc

open Paging
open StableSort

/-! ## Pages -/

/-- `PAGE_SIZE`. -/
def pageSize : Nat := 50

structure RpcError where
  code : Int
  message : Str
  deriving DecidableEq

/-- `INVALID_PARAMS`. -/
def invalidParams : Int := -32602

/-- A group of results. -/
structure SearchGroup (α : Type) where
  id : Str
  versions : List α
  deriving DecidableEq

/-- A group on a page. -/
structure PageGroup (α : Type) where
  id : Str
  versions : List α
  matchCount : Nat
  deriving DecidableEq

/-- The variables of a loop that fills a page. -/
structure PageState (α : Type) where
  page : List (PageGroup α) := []
  entries : Nat := 0
  limitations : List Str

/-- The notes for a group. -/
def groupLimitations (matchCount : Nat) : List Str :=
  if 100 < matchCount then
    ["A result group has ".toList ++ (toString matchCount).toList ++
      " confirmed matches; showing 100. Narrow the query or source selection to inspect the remaining matches.".toList]
  else []

/-- `cap_limitations`. -/
def capLimitations (limitations : List Str) : List Str :=
  if 100 < limitations.length then
    limitations.take 100 ++
      [(toString (limitations.length - 100)).toList ++
        " additional coverage limitations omitted".toList]
  else limitations

section Generic

variable {α β : Type}

/-- The loop of `search_page`. -/
def pageLoop : List (SearchGroup α) → PageState α → PageState α
  | [], state => state
  | group :: rest, state =>
    let matchCount := group.versions.length
    let versions := group.versions.take 100
    let state := { state with limitations := state.limitations ++ groupLimitations matchCount }
    if 200 < state.entries + versions.length ∧ state.page.isEmpty = false then state
    else
      pageLoop rest
        { state with
          entries := state.entries + versions.length
          page := state.page ++ [⟨group.id, versions, matchCount⟩] }

/-- `search_page`: the page and the limitations. -/
def searchPage (groups : List (SearchGroup α)) (offset : Nat) (limitations : List Str) :
    Except RpcError (List (PageGroup α) × List Str) :=
  if groups.length < offset then .error ⟨invalidParams,
    "search offset exceeds the result count".toList⟩
  else
    let state := pageLoop ((groups.drop offset).take pageSize) { limitations := limitations }
    .ok (state.page, state.limitations)

/-- What a request says about its page. -/
structure SearchRequest where
  offset : Nat := 0
  revision : Option Nat := none
  snapshot : Option Str := none
  deriving DecidableEq

structure SearchResponse (α : Type) where
  revision : Nat
  snapshot : Str
  groups : List (PageGroup α)
  loaded : Nat
  totalGroups : Nat
  totalMatches : Nat
  languages : List Str
  nextOffset : Option Nat
  limitations : List Str
  deriving DecidableEq

/-- The workspace of a search, with the digest of its results. -/
structure SearchContext where
  revision : Nat
  querySnapshot : Str
  languages : List Str

namespace SearchContext

variable (context : SearchContext)

/-- The check for a workspace of another revision. -/
def checkRevision (request : SearchRequest) : Except RpcError Unit :=
  if 0 < request.offset ∧ request.revision ≠ some context.revision then
    .error ⟨-32801, "workspace changed; restart the search".toList⟩
  else .ok ()

/-- The check for other results. -/
def checkSnapshot (request : SearchRequest) : Except RpcError Unit :=
  if 0 < request.offset ∧ request.snapshot ≠ some context.querySnapshot then
    .error ⟨-32801, "search snapshot changed; restart the search".toList⟩
  else .ok ()

/-- The response with a page. -/
def response (groups : List (SearchGroup α)) (offset : Nat) (page : List (PageGroup β))
    (limitations : List Str) : SearchResponse β :=
  let loaded := offset + page.length
  { revision := context.revision
    snapshot := context.querySnapshot
    groups := page
    loaded := loaded
    totalGroups := groups.length
    totalMatches := (groups.map fun group => group.versions.length).sum
    languages := context.languages
    nextOffset := if loaded < groups.length then some loaded else none
    limitations := capLimitations limitations }

/-- `editor_search` where the results are grouped and sorted; definitions get a title. -/
def editorSearch (title : α → β) (groups : List (SearchGroup α)) (limitations : List Str)
    (request : SearchRequest) : Except RpcError (SearchResponse β) := do
  context.checkRevision request
  context.checkSnapshot request
  let (page, limitations) ← searchPage groups request.offset limitations
  .ok (context.response groups request.offset
    (page.map fun group => ⟨group.id, group.versions.map title, group.matchCount⟩) limitations)

end SearchContext

/-! ## Localisations -/

/-- What a page reads of a localisation. -/
structure LocalisationVersion where
  id : Str
  normalisedKey : Str
  language : Str
  active : Bool
  root : Option Nat
  deriving DecidableEq

/-- The order of the versions in a group. -/
def versionKey (entry : LocalisationVersion) : Bool ×ₗ WithBot ℕ ×ₗ Str :=
  toLex (!entry.active, toLex (entry.root, entry.id))

/-- The groups of the entries that match, in the order of their map. -/
def localisationGroups (accepts : LocalisationVersion → Bool) (entries : List LocalisationVersion) :
    List (SearchGroup LocalisationVersion) :=
  let matching : Buckets Str Str LocalisationVersion :=
    (entries.filter accepts).foldl (fun matching entry =>
      matching.push (entry.normalisedKey, entry.language) entry) ∅
  matching.toList.flatMap fun key => key.2.toList.map fun language =>
    ⟨key.1 ++ '\x00' :: language.1, language.2⟩

variable (render : LocalisationVersion → Except RpcError β)

/-- The loop of `editor_localisation_page`. -/
def localisationLoop : List (SearchGroup LocalisationVersion) → PageState β →
    Except RpcError (PageState β)
  | [], state => .ok state
  | group :: rest, state => do
    let versions := sortByKey versionKey group.versions
    let matchCount := versions.length
    let state := { state with limitations := state.limitations ++ groupLimitations matchCount }
    let versionCount := min matchCount 100
    if 200 < state.entries + versionCount ∧ state.page.isEmpty = false then .ok state
    else
      let rendered ← (versions.take 100).mapM render
      localisationLoop rest
        { state with
          entries := state.entries + versionCount
          page := state.page ++ [⟨group.id, rendered, matchCount⟩] }

/-- `editor_localisation_page` with the groups of its map. -/
def SearchContext.localisationPage (context : SearchContext)
    (groups : List (SearchGroup LocalisationVersion))
    (limitations : List Str) (request : SearchRequest) : Except RpcError (SearchResponse β) := do
  context.checkRevision request
  if groups.length < request.offset then
    .error ⟨invalidParams, "invalid search offset".toList⟩
  else
    context.checkSnapshot request
    let state ← localisationLoop render ((groups.drop request.offset).take pageSize)
      { limitations := limitations }
    .ok (context.response groups request.offset state.page state.limitations)

/-- `editor_localisation_page`. -/
def SearchContext.editorLocalisationPage (context : SearchContext)
    (accepts : LocalisationVersion → Bool)
    (entries : List LocalisationVersion) (limitations : List Str) (request : SearchRequest) :
    Except RpcError (SearchResponse β) :=
  context.localisationPage render (localisationGroups accepts entries) limitations request

end Generic

/-! ## The client -/

section Client

variable {α β : Type}

/-- The request for the page at an offset. -/
def SearchResponse.next (response : SearchResponse β) (offset : Nat) : SearchRequest :=
  ⟨offset, some response.revision, some response.snapshot⟩

/-- The client follows the offsets: the responses, and the error that stopped it. -/
def follow (respond : SearchRequest → Except RpcError (SearchResponse β)) :
    Nat → SearchRequest → Option (List (SearchResponse β) × Option RpcError)
  | 0, _ => none
  | fuel + 1, request =>
    match respond request with
    | .error error => some ([], some error)
    | .ok response =>
      match response.nextOffset with
      | none => some ([response], none)
      | some offset =>
        (follow respond fuel (response.next offset)).map fun run => (response :: run.1, run.2)

/-- The budgets of a page. -/
def SearchResponse.Bounded (response : SearchResponse β) : Prop :=
  response.groups.length ≤ pageSize ∧ (response.groups.map fun group => group.versions.length).sum ≤
    200

/-- How a group stands on a page: with the first 100 of its versions and the number of all of
them. -/
structure Shows (order : List α → List α) (render : α → Except RpcError β) (group : SearchGroup α)
    (shown : PageGroup β) : Prop where
  id : shown.id = group.id
  matchCount : shown.matchCount = group.versions.length
  versions : ((order group.versions).take 100).mapM render = .ok shown.versions

/-- Following the offsets from the front ends on bounded pages. It shows every group once and in
order, unless an error stops it. -/
def Visits (respond : SearchRequest → Except RpcError (SearchResponse β))
    (groups : List (SearchGroup α))
    (Shown : SearchGroup α → PageGroup β → Prop) (Fails : RpcError → Prop) : Prop :=
  ∃ responses failure, follow respond (groups.length + 1) {} = some (responses, failure) ∧
    (∀ response ∈ responses, response.Bounded) ∧
    (∃ visited rest, groups = visited ++ rest ∧
      List.Forall₂ Shown visited (responses.flatMap SearchResponse.groups) ∧
      (failure = none → rest = [])) ∧
    ∀ error, failure = some error → Fails error

/-- How many entries of a group are shown. -/
def shownCount (group : SearchGroup α) : Nat := min group.versions.length 100

/-- The groups of the page at an offset. -/
def pageGroups (groups : List (SearchGroup α)) (offset : Nat) : List (SearchGroup α) :=
  front shownCount 200 ((groups.drop offset).take pageSize)

/-- What the requests for pages of the same results are answered with. -/
def Answers (respond : SearchRequest → Except RpcError (SearchResponse β)) (context : SearchContext)
    (groups : List (SearchGroup α)) (Shown : SearchGroup α → PageGroup β → Prop)
    (Fails : RpcError → Prop) : Prop :=
  ∀ request : SearchRequest, request.offset ≤ groups.length →
    (0 < request.offset →
      request.revision = some context.revision ∧ request.snapshot = some context.querySnapshot) →
      (∃ error, respond request = .error error ∧ Fails error) ∨
        ∃ page limitations, List.Forall₂ Shown (pageGroups groups request.offset) page ∧
          respond request = .ok (context.response groups request.offset page limitations)

theorem length_pageGroups_le (groups : List (SearchGroup α)) (offset : Nat) :
    (pageGroups groups offset).length ≤ pageSize :=
  (front_isPrefix _).length_le.trans (List.length_take_le _ _)

theorem pageGroups_isPrefix (groups : List (SearchGroup α)) (offset : Nat) :
    pageGroups groups offset <+: groups.drop offset :=
  (front_isPrefix _).trans (List.take_prefix _ _)

variable {groups : List (SearchGroup α)}

theorem length_pageGroups_pos {offset : Nat} (h : offset < groups.length) :
    0 < (pageGroups groups offset).length := by
  refine length_front_pos fun hnil => ?_
  rw [List.take_eq_nil_iff, List.drop_eq_nil_iff] at hnil
  exact hnil.elim (by decide) (Nat.not_le_of_lt h)

variable {context : SearchContext}

theorem bounded_response {offset : Nat} {page : List (PageGroup β)} {limitations : List Str}
    {Shown : SearchGroup α → PageGroup β → Prop}
    (hcount : ∀ group shown, Shown group shown → shown.versions.length = shownCount group)
    (hpage : List.Forall₂ Shown (pageGroups groups offset) page) :
    (context.response groups offset page limitations).Bounded := by
  have hcounts : page.map (fun group => group.versions.length) =
    (pageGroups groups offset).map shownCount := by
    have hmap : ∀ {visited : List (SearchGroup α)} {page : List (PageGroup β)},
      List.Forall₂ Shown visited page →
        page.map (fun group => group.versions.length) = visited.map shownCount := by
      intro visited page h
      induction h with
      | nil => rfl
      | cons hshown _ ih => rw [List.map_cons, List.map_cons, ih, hcount _ _ hshown]
    exact hmap hpage
  refine ⟨?_, ?_⟩
  · exact hpage.length_eq.symm.trans_le (length_pageGroups_le groups offset)
  · refine Nat.le_trans (Nat.le_of_eq (congrArg List.sum hcounts)) ?_
    exact sum_front_le (fun group => (Nat.min_le_right _ _).trans (by decide)) _

/-- The step of the client is by the groups of the page. -/
theorem follow_visits {respond : SearchRequest → Except RpcError (SearchResponse β)}
    {Shown : SearchGroup α → PageGroup β → Prop} {Fails : RpcError → Prop}
    (h : Answers respond context groups Shown Fails)
    (hcount : ∀ group shown, Shown group shown → shown.versions.length = shownCount group)
    (fuel : Nat) :
    ∀ request : SearchRequest, request.offset ≤ groups.length →
      groups.length - request.offset < fuel →
      (0 < request.offset →
        request.revision = some context.revision ∧ request.snapshot = some context.querySnapshot) →
      ∃ responses failure, follow respond fuel request = some (responses, failure) ∧
        (∀ response ∈ responses, response.Bounded) ∧
        (∃ visited rest, groups.drop request.offset = visited ++ rest ∧
          List.Forall₂ Shown visited (responses.flatMap SearchResponse.groups) ∧
          (failure = none → rest = [])) ∧
        ∀ error, failure = some error → Fails error := by
  induction fuel with
  | zero => exact fun _ _ hfuel _ => absurd hfuel (Nat.not_lt_zero _)
  | succ fuel ih =>
    intro request hoffset hfuel hvalid
    obtain ⟨error, herror, hfails⟩ | ⟨page, limitations, hpage, hok⟩ := h request hoffset hvalid
    · refine ⟨[], some error, by simp only [follow, herror],
        fun _ hmem => absurd hmem List.not_mem_nil, ⟨[], _, rfl, .nil, fun hnone => nomatch hnone⟩,
        fun e he => Option.some.inj he ▸ hfails⟩
    have hbounded : (context.response groups request.offset page limitations).Bounded :=
      bounded_response hcount hpage
    have hlength : page.length = (pageGroups groups request.offset).length := hpage.length_eq.symm
    have hdrop : groups.drop request.offset =
        pageGroups groups request.offset ++ groups.drop (request.offset + page.length) := by
      rw [hlength, ← List.drop_drop]
      exact (List.prefix_iff_eq_append.mp (pageGroups_isPrefix groups request.offset)).symm
    by_cases hmore : request.offset + page.length < groups.length
    · have hpos : 0 < page.length := hlength ▸ length_pageGroups_pos (by omega)
      have hnext : (context.response groups request.offset page limitations).nextOffset =
          some (request.offset + page.length) := if_pos hmore
      obtain ⟨responses, failure, hrun, hrest, ⟨visited, rest, hsplit, hshown, hdone⟩, hfails⟩ :=
        ih ((context.response groups request.offset page limitations).next
          (request.offset + page.length)) hmore.le (by dsimp only [SearchResponse.next]; omega)
          fun _ => ⟨rfl, rfl⟩
      refine ⟨_ :: responses, failure, ?_, List.forall_mem_cons.mpr ⟨hbounded, hrest⟩,
        ⟨pageGroups groups request.offset ++ visited, rest, ?_, ?_, hdone⟩, hfails⟩
      · simp only [follow, hok, hnext, hrun, Option.map_some]
      · rw [hdrop, List.append_assoc, ← hsplit]
        rfl
      · exact List.rel_append hpage hshown
    · have hnext : (context.response groups request.offset page limitations).nextOffset =
        none := if_neg hmore
      refine ⟨[_], none, ?_, List.forall_mem_singleton.mpr hbounded, ⟨_, _, hdrop, ?_, fun _ => ?_⟩,
        fun _ hnone => nomatch hnone⟩
      · simp only [follow, hok, hnext]
      · rw [List.flatMap_singleton]
        exact hpage
      · exact List.drop_eq_nil_of_le (Nat.not_lt.mp hmore)

/-- The client starts at the front. -/
theorem Answers.visits {respond : SearchRequest → Except RpcError (SearchResponse β)}
    {Shown : SearchGroup α → PageGroup β → Prop} {Fails : RpcError → Prop}
    (h : Answers respond context groups Shown Fails)
    (hcount : ∀ group shown, Shown group shown → shown.versions.length = shownCount group) :
    Visits respond groups Shown Fails :=
  follow_visits h hcount _ {} (Nat.zero_le _) (Nat.lt_succ_self _) fun hpos =>
    absurd hpos (Nat.lt_irrefl 0)

/-! ## The loops -/

/-- Rendering fails at an entry, or it gives every entry. -/
theorem mapM_render (render : α → Except RpcError β) (xs : List α) :
    (∃ error, xs.mapM render = .error error ∧ ∃ x ∈ xs, render x = .error error) ∨
      ∃ ys, xs.mapM render = .ok ys ∧ ys.length = xs.length := by
  induction xs with
  | nil => exact .inr ⟨[], rfl, rfl⟩
  | cons x xs ih =>
    rw [List.mapM_cons]
    cases hx : render x with
    | error error => exact .inl ⟨error, rfl, x, List.mem_cons_self, hx⟩
    | ok y =>
      obtain ⟨error, herror, z, hz, hfails⟩ | ⟨ys, hys, hlength⟩ := ih
      · rw [herror]
        exact .inl ⟨error, rfl, z, List.mem_cons_of_mem _ hz, hfails⟩
      · rw [hys]
        exact .inr ⟨y :: ys, rfl, congrArg Nat.succ hlength⟩

theorem Shows.length_versions {order : List α → List α} {render : α → Except RpcError β}
    (horder : ∀ versions, (order versions).Perm versions) {group : SearchGroup α}
    {shown : PageGroup β}
    (h : Shows order render group shown) : shown.versions.length = shownCount group := by
  obtain ⟨error, herror, -⟩ | ⟨ys, hys, hlength⟩ :=
    mapM_render render ((order group.versions).take 100)
  · rw [h.versions] at herror
    cases herror
  · rw [h.versions] at hys
    rw [Except.ok.inj hys, hlength, List.length_take, (horder _).length_eq, Nat.min_comm]
    rfl

/-- The group that `search_page` makes. -/
def shownGroup (group : SearchGroup α) : PageGroup α :=
  ⟨group.id, group.versions.take 100, group.versions.length⟩

theorem pageLoop_within (groups : List (SearchGroup α)) : ∀ state : PageState α,
    state.page.isEmpty = false →
    (pageLoop groups state).page =
      state.page ++ (within shownCount 200 state.entries groups).map shownGroup := by
  induction groups with
  | nil =>
    intro state _
    exact (List.append_nil _).symm
  | cons group rest ih =>
    intro state hpage
    have hcount : (group.versions.take 100).length = shownCount group := by
      rw [List.length_take, Nat.min_comm]
      rfl
    unfold pageLoop within
    dsimp only
    rw [hcount]
    by_cases hfull : 200 < state.entries + shownCount group
    · rw [if_pos ⟨hfull, hpage⟩, if_neg (Nat.not_le_of_lt hfull), List.map_nil, List.append_nil]
    · rw [if_neg fun h => hfull h.1, if_pos (Nat.not_lt.mp hfull), ih _ (by simp),
        List.append_assoc]
      rfl

/-- `search_page` fills its page with a front of the groups. -/
theorem pageLoop_groups (groups : List (SearchGroup α)) (limitations : List Str) :
    (pageLoop groups { limitations := limitations }).page =
      (front shownCount 200 groups).map shownGroup := by
  cases groups with
  | nil => rfl
  | cons group rest =>
    have hcount : (group.versions.take 100).length = shownCount group := by
      rw [List.length_take, Nat.min_comm]
      rfl
    unfold pageLoop front
    dsimp only
    rw [hcount, if_neg fun h => Bool.noConfusion h.2, pageLoop_within _ _ rfl, Nat.zero_add]
    rfl

theorem shows_shownGroup (title : α → β) (groups : List (SearchGroup α)) :
    List.Forall₂ (Shows (fun versions => versions) fun entry => .ok (title entry)) groups
      ((groups.map shownGroup).map fun group =>
        ⟨group.id, group.versions.map title, group.matchCount⟩) := by
  induction groups with
  | nil => exact .nil
  | cons group groups ih =>
    refine .cons ⟨rfl, rfl, ?_⟩ ih
    exact List.mapM_pure

/-- A version of a group does not render. -/
def RenderFails (render : LocalisationVersion → Except RpcError β)
    (groups : List (SearchGroup LocalisationVersion)) (error : RpcError) : Prop :=
  ∃ group ∈ groups, ∃ entry ∈ group.versions, render entry = .error error

variable {render : LocalisationVersion → Except RpcError β}

theorem RenderFails.mono {groups more : List (SearchGroup LocalisationVersion)} {error : RpcError}
    (h : RenderFails render groups error) (hsub : groups ⊆ more) :
    RenderFails render more error := by
  obtain ⟨group, hgroup, hentry⟩ := h
  exact ⟨group, hsub hgroup, hentry⟩

theorem renderFails_of_mapM {group : SearchGroup LocalisationVersion} {error : RpcError}
    (h : ∃ entry ∈ (sortByKey versionKey group.versions).take 100, render entry = .error error) :
    RenderFails render [group] error := by
  obtain ⟨entry, hentry, hfails⟩ := h
  exact ⟨group, List.mem_singleton_self _, entry,
    (perm_sortByKey _ _).mem_iff.mp (List.take_subset _ _ hentry), hfails⟩

theorem localisationLoop_within (groups : List (SearchGroup LocalisationVersion)) :
    ∀ state : PageState β,
    state.page.isEmpty = false →
      (∃ error, localisationLoop render groups state = .error error ∧
        RenderFails render groups error) ∨
        ∃ final page, localisationLoop render groups state = .ok final ∧
          final.page = state.page ++ page ∧
          List.Forall₂ (Shows (sortByKey versionKey) render)
            (within shownCount 200 state.entries groups) page := by
  induction groups with
  | nil =>
    intro state _
    exact .inr ⟨state, [], rfl, (List.append_nil _).symm, .nil⟩
  | cons group rest ih =>
    intro state hpage
    have hlength : (sortByKey versionKey group.versions).length = group.versions.length :=
      (perm_sortByKey _ _).length_eq
    have hcount : min group.versions.length 100 = shownCount group := rfl
    unfold localisationLoop within
    dsimp only
    rw [hlength, hcount]
    by_cases hfull : 200 < state.entries + shownCount group
    · rw [if_pos ⟨hfull, hpage⟩, if_neg (Nat.not_le_of_lt hfull)]
      exact .inr ⟨_, [], rfl, (List.append_nil _).symm, .nil⟩
    rw [if_neg fun h => hfull h.1, if_pos (Nat.not_lt.mp hfull)]
    obtain ⟨error, herror, hentry⟩ | ⟨rendered, hrendered, -⟩ :=
      mapM_render render ((sortByKey versionKey group.versions).take 100)
    · rw [herror]
      refine .inl ⟨error, rfl, (renderFails_of_mapM hentry).mono ?_⟩
      exact List.cons_subset_cons _ (List.nil_subset _)
    · rw [hrendered]
      obtain ⟨error, herror, hfails⟩ | ⟨final, page, hok, hfinal, hshown⟩ := ih
        { state with
          limitations := state.limitations ++ groupLimitations group.versions.length
          entries := state.entries + shownCount group
          page := state.page ++ [⟨group.id, rendered, group.versions.length⟩] } (by simp)
      · exact .inl ⟨error, herror, hfails.mono (List.subset_cons_self _ _)⟩
      · refine .inr ⟨final, ⟨group.id, rendered, group.versions.length⟩ :: page, hok, ?_,
          .cons ⟨rfl, rfl, hrendered⟩ hshown⟩
        rw [hfinal, List.append_assoc]
        rfl

/-- The loop of the localisations fills its page with a front of the groups, too. -/
theorem localisationLoop_groups (render : LocalisationVersion → Except RpcError β)
    (groups : List (SearchGroup LocalisationVersion)) (limitations : List Str) :
    (∃ error, localisationLoop render groups { limitations := limitations } = .error error ∧
      RenderFails render groups error) ∨
      ∃ final, localisationLoop render groups { limitations := limitations } = .ok final ∧
        List.Forall₂ (Shows (sortByKey versionKey) render) (front shownCount 200 groups)
          final.page := by
  cases groups with
  | nil => exact .inr ⟨_, rfl, .nil⟩
  | cons group rest =>
    have hlength : (sortByKey versionKey group.versions).length = group.versions.length :=
      (perm_sortByKey _ _).length_eq
    have hcount : min group.versions.length 100 = shownCount group := rfl
    unfold localisationLoop front
    dsimp only
    rw [hlength, hcount, if_neg fun h => Bool.noConfusion h.2]
    obtain ⟨error, herror, hentry⟩ | ⟨rendered, hrendered, -⟩ :=
      mapM_render render ((sortByKey versionKey group.versions).take 100)
    · rw [herror]
      refine .inl ⟨error, rfl, (renderFails_of_mapM hentry).mono ?_⟩
      exact List.cons_subset_cons _ (List.nil_subset _)
    · rw [hrendered]
      obtain ⟨error, herror, hfails⟩ | ⟨final, page, hok, hfinal, hshown⟩ :=
        localisationLoop_within rest (⟨[⟨group.id, rendered, group.versions.length⟩],
        0 + shownCount group,
          limitations ++ groupLimitations group.versions.length⟩ : PageState β) rfl
      · exact .inl ⟨error, herror, hfails.mono (List.subset_cons_self _ _)⟩
      · refine .inr ⟨final, hok, ?_⟩
        rw [hfinal]
        rw [Nat.zero_add] at hshown
        exact .cons ⟨rfl, rfl, hrendered⟩ hshown

/-! ## The requests -/

theorem checkRevision_ok {request : SearchRequest}
    (h : 0 < request.offset → request.revision = some context.revision) :
    context.checkRevision request = .ok () :=
  if_neg fun hbad => hbad.2 (h hbad.1)

theorem checkSnapshot_ok {request : SearchRequest}
    (h : 0 < request.offset → request.snapshot = some context.querySnapshot) :
    context.checkSnapshot request = .ok () :=
  if_neg fun hbad => hbad.2 (h hbad.1)

theorem editorSearch_answers (context : SearchContext) (title : α → β)
    (groups : List (SearchGroup α)) (limitations : List Str) :
    Answers (context.editorSearch title groups limitations) context groups
      (Shows (fun versions => versions) fun entry => .ok (title entry)) fun _ => False := by
  intro request hoffset hvalid
  refine .inr ⟨_, (pageLoop ((groups.drop request.offset).take pageSize)
    { limitations := limitations }).limitations, shows_shownGroup title _, ?_⟩
  unfold SearchContext.editorSearch searchPage
  rw [checkRevision_ok fun h => (hvalid h).1, checkSnapshot_ok fun h => (hvalid h).2,
    if_neg (Nat.not_lt.mpr hoffset)]
  dsimp only
  rw [pageLoop_groups]
  rfl

theorem localisationPage_answers (context : SearchContext)
    (render : LocalisationVersion → Except RpcError β)
    (groups : List (SearchGroup LocalisationVersion)) (limitations : List Str) :
    Answers (context.localisationPage render groups limitations) context groups
      (Shows (sortByKey versionKey) render) (RenderFails render groups) := by
  intro request hoffset hvalid
  have hpage := localisationLoop_groups render ((groups.drop request.offset).take pageSize)
    limitations
  unfold SearchContext.localisationPage
  rw [checkRevision_ok fun h => (hvalid h).1, checkSnapshot_ok fun h => (hvalid h).2]
  obtain ⟨error, herror, hfails⟩ | ⟨final, hok, hshown⟩ := hpage
  · refine .inl ⟨error, ?_, hfails.mono fun _ hmem => ?_⟩
    · simp only [if_neg (Nat.not_lt.mpr hoffset), herror]
      rfl
    · exact List.mem_of_mem_drop (List.mem_of_mem_take hmem)
  · refine .inr ⟨final.page, final.limitations, hshown, ?_⟩
    simp only [if_neg (Nat.not_lt.mpr hoffset), hok]
    rfl

/-- Following the offsets ends and shows every group once, for both builders of pages; those of the
localisations are the groups of the entries that match. -/
theorem search_visits :
    (∀ (context : SearchContext) (title : α → β) (groups : List (SearchGroup α))
      (limitations : List Str),
      Visits (context.editorSearch title groups limitations) groups
        (Shows (fun versions => versions) fun entry => .ok (title entry)) fun _ => False) ∧
      (∀ (context : SearchContext) (render : LocalisationVersion → Except RpcError β)
        (groups : List (SearchGroup LocalisationVersion)) (limitations : List Str),
        Visits (context.localisationPage render groups limitations) groups
          (Shows (sortByKey versionKey) render) (RenderFails render groups)) ∧
      ∀ (context : SearchContext) (render : LocalisationVersion → Except RpcError β)
        (accepts : LocalisationVersion → Bool) (entries : List LocalisationVersion)
          (limitations : List Str),
        Visits (context.editorLocalisationPage render accepts entries limitations)
          (localisationGroups accepts entries) (Shows (sortByKey versionKey) render)
          (RenderFails render (localisationGroups accepts entries)) := by
  have hlocalisations := fun (context : SearchContext) (render : LocalisationVersion →
    Except RpcError β) groups
      limitations => (localisationPage_answers context render groups limitations).visits
        fun group shown h =>
    h.length_versions fun _ => perm_sortByKey _ _
  refine ⟨fun context title groups limitations => ?_, hlocalisations,
    fun context render accepts entries => ?_⟩
  · exact (editorSearch_answers context title groups limitations).visits fun group shown h =>
      h.length_versions fun _ => .refl _
  · exact hlocalisations context render (localisationGroups accepts entries)

end Client

end ParadoxCode.Pdc
