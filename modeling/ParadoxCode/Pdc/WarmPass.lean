import Mathlib.Data.List.Induction
import ParadoxCode.Pdc.Validation

/-!
# Warm and cold passes

A pass that starts from the cache of the passes before it, and the same pass from an empty cache.
Their summaries agree. What they publish is a prefix of the closed files each: the warm one passes
over the files whose entry has no payload.
-/

namespace ParadoxCode.Pdc

/-! ## Publications of one URI -/

/-- The hash of the last publication of a URI. -/
def lastSent (publications : List WorkspaceDiagnosticPublication) (uri : Str) : Option Nat :=
  (publications.filter fun publication => publication.uri = uri).getLast?.map fun publication =>
    publication.payload.hash

theorem send_getElem? (published : Std.ExtTreeMap Str Nat)
    (publication : WorkspaceDiagnosticPublication)
    (uri : Str) : (send published publication)[uri]? =
      if publication.uri = uri then some publication.payload.hash else published[uri]? := by
  unfold send
  by_cases huri : publication.uri = uri
  · rw [if_pos huri, huri]
    split_ifs with hheld
    · exact hheld
    · rw [Std.ExtTreeMap.getElem?_insert_self]
  · rw [if_neg huri]
    split_ifs
    · rfl
    · rw [Std.ExtTreeMap.getElem?_insert, if_neg (by rwa [Std.compare_eq_iff_eq])]

/-- What is held of a URI is its last publication, or what was held before. -/
theorem foldl_send_getElem? (publications : List WorkspaceDiagnosticPublication)
    (published : Std.ExtTreeMap Str Nat) (uri : Str) :
    (publications.foldl send published)[uri]? = (lastSent publications uri).or published[uri]? := by
  unfold lastSent
  induction publications using List.reverseRecOn with
  | nil => rfl
  | append_singleton publications publication ih =>
    rw [List.foldl_append, List.foldl_cons, List.foldl_nil, send_getElem?, ih, List.filter_append]
    by_cases huri : publication.uri = uri
    · rw [if_pos huri, List.filter_cons, if_pos (decide_eq_true huri), List.filter_nil,
        List.getLast?_concat]
      rfl
    · rw [if_neg huri, List.filter_cons, if_neg (by simpa using huri), List.filter_nil,
        List.append_nil]

/-- Clearing what left the workspace touches no current file. -/
theorem clearStale_getElem? (published : Std.ExtTreeMap Str Nat) {current : List Str} {uri : Str}
    (h : uri ∈ current) : (clearStale published current)[uri]? = published[uri]? := by
  have hstale : uri ∉ (published.keys.filter fun uri => !current.contains uri).take maxClears := by
    intro hmem
    have hnot := (List.mem_filter.mp (List.mem_of_mem_take hmem)).2
    rw [List.contains_iff_mem.mpr h] at hnot
    cases hnot
  unfold clearStale
  generalize (published.keys.filter fun uri => !current.contains uri).take maxClears =
    stale at hstale
  induction stale generalizing published with
  | nil => rfl
  | cons other stale ih =>
    rw [List.mem_cons, not_or] at hstale
    rw [List.foldl_cons, ih _ hstale.2, Std.ExtTreeMap.getElem?_erase, if_neg]
    rw [Std.compare_eq_iff_eq]
    exact Ne.symm hstale.1

/-! ## Prefixes -/

section

variable (diagnose : Nat → Nat → Nat → Nat → Diagnosed) (cache : Cache) (pass : Pass)

/-- The closed files with their URIs. -/
def Pass.closed : List (Str × ValidatedFile) :=
  pass.files.filterMap fun file => file.closedUri.map fun uri => (uri, file)

/-- The files that a cold pass publishes. -/
def Pass.withinBudget : List (Str × ValidatedFile) := pass.closed.take maxPublications

/-- The files that a pass with the cache publishes. -/
def Pass.published : List (Str × ValidatedFile) :=
  (pass.closed.filter fun entry => !pass.blocked cache entry.2).take maxPublications

def Pass.publicationOf (entry : Str × ValidatedFile) : WorkspaceDiagnosticPublication :=
  ⟨entry.1, (pass.diagnosed diagnose entry.2).payload⟩

end

section

variable {diagnose : Nat → Nat → Nat → Nat → Diagnosed} {cache : Cache} {pass : Pass}

theorem filterMap_publication (files : List ValidatedFile) :
    files.filterMap (pass.publication diagnose cache) =
    ((files.filterMap fun file => file.closedUri.map fun uri => (uri, file)).filter
      fun entry => !pass.blocked cache entry.2).map (pass.publicationOf diagnose) := by
  induction files with
  | nil => rfl
  | cons file files ih =>
    rw [List.filterMap_cons, List.filterMap_cons, ih]
    unfold Pass.publication
    cases file.closedUri with
    | none => simp
    | some uri =>
      cases hblocked : pass.blocked cache file with
      | true => simp [hblocked]
      | false => simp [hblocked, Pass.publicationOf]

/-- The publications of a pass. -/
theorem publications_eq (hsound : CacheSound diagnose cache) (pass : Pass) :
    (pass.validationResult diagnose cache).publications =
      if pass.publish = true then (pass.published cache).map (pass.publicationOf diagnose) else
        [] := by
  rw [(validationResult_spec hsound pass).publications, List.nil_append,
    filterMap_publication, Nat.sub_zero]
  unfold Pass.published
  rw [List.map_take]
  rfl

theorem published_empty (pass : Pass) : pass.published ∅ = pass.withinBudget := by
  unfold Pass.published Pass.withinBudget
  rw [List.filter_eq_self.mpr]
  intro entry _
  unfold Pass.blocked Pass.hit
  rw [Std.ExtTreeMap.getElem?_empty]
  rfl

theorem currentUris_eq (hsound : CacheSound diagnose cache) (pass : Pass) :
    (pass.validationResult diagnose cache).currentUris = pass.closed.map Prod.fst := by
  rw [(validationResult_spec hsound pass).currentUris, List.nil_append]
  unfold Pass.closed
  rw [List.map_filterMap]
  refine List.filterMap_congr ?_
  intro file _
  cases file.closedUri <;> rfl

end

/-! ## The agreement -/

section

variable (diagnose : Nat → Nat → Nat → Nat → Diagnosed) (server : LspServer) (pass : Pass)

/-- The client holds what is computed for a closed file. -/
def LspServer.Holds (entry : Str × ValidatedFile) : Prop :=
  server.published[entry.1]? = some (pass.diagnosed diagnose entry.2).payload.hash

/-- The server behind a pass that starts from a cache. -/
def LspServer.behind (cache : Cache) : LspServer :=
  server.commit pass.live (pass.validationResult diagnose cache)

/-- The pass gives the same summary from the cache of the server as from an empty one, and the
client holds the up-to-date diagnostics of the same files. -/
structure WarmIsCold : Prop where
  summary : (pass.validationResult diagnose server.cache).summary =
    (pass.validationResult diagnose ∅).summary
  held : ∀ entry ∈ pass.closed, (server.behind diagnose pass server.cache).Holds
    diagnose pass entry ↔ (server.behind diagnose pass ∅).Holds diagnose pass entry

/-- The hash of what is computed for the last file with the URI among some files. -/
def Pass.lastHash (part : List (Str × ValidatedFile)) (uri : Str) : Option Nat :=
  (part.filter fun entry => entry.1 = uri).getLast?.map fun entry =>
    (pass.diagnosed diagnose entry.2).payload.hash

/-- Of every URI the last file in the one prefix is that in the other, up to the hash, where a
prefix without a file of the URI leaves what the client holds. -/
def Settled : Prop := pass.publish = true → ∀ entry ∈ pass.closed,
  (pass.lastHash diagnose (pass.published server.cache) entry.1).or server.published[entry.1]? =
    (pass.lastHash diagnose pass.withinBudget entry.1).or server.published[entry.1]?

end

section

variable {diagnose : Nat → Nat → Nat → Nat → Diagnosed} {server : LspServer}
    {cache : Cache} {pass : Pass}

theorem lastSent_publicationOf (part : List (Str × ValidatedFile)) (uri : Str) :
    lastSent (part.map (pass.publicationOf diagnose)) uri = pass.lastHash diagnose part uri := by
  unfold lastSent Pass.lastHash
  rw [List.filter_map, List.getLast?_map, Option.map_map]
  rfl

/-- What the client holds of a closed file behind a pass. -/
theorem behind_getElem? (hsound : CacheSound diagnose cache) {entry : Str × ValidatedFile}
    (hmem : entry ∈ pass.closed) : (server.behind diagnose pass cache).published[entry.1]? =
      if pass.publish = true then
        (pass.lastHash diagnose (pass.published cache) entry.1).or server.published[entry.1]?
      else server.published[entry.1]? := by
  show ((pass.validationResult diagnose cache).publications.foldl send
    (clearStale server.published (pass.validationResult diagnose cache).currentUris))[entry.1]? = _
  rw [foldl_send_getElem?, publications_eq hsound, currentUris_eq hsound,
    clearStale_getElem? _ (List.mem_map_of_mem hmem)]
  split_ifs
  · rw [lastSent_publicationOf]
  · rfl

theorem summary_eq (hsound : CacheSound diagnose cache) (pass : Pass) :
    (pass.validationResult diagnose cache).summary =
      (pass.validationResult diagnose ∅).summary := by
  rw [(validationResult_spec hsound pass).summary,
    (validationResult_spec (cacheSound_empty diagnose) pass).summary]

/-- The last hash of a URI is that of a closed file of the URI. -/
theorem lastHash_eq_some {part : List (Str × ValidatedFile)}
    (hpart : part.Sublist pass.closed) {uri : Str}
    {hash : Nat} (h : pass.lastHash diagnose part uri = some hash) :
    ∃ entry ∈ pass.closed, entry.1 = uri ∧ (pass.diagnosed diagnose entry.2).payload.hash =
      hash := by
  obtain ⟨entry, hlast, hhash⟩ := Option.map_eq_some_iff.mp h
  obtain ⟨hentry, huri⟩ := List.mem_filter.mp (List.mem_of_getLast? hlast)
  exact ⟨entry, hpart.subset hentry, of_decide_eq_true huri, hhash⟩

/-- What is left of a URI by two parts agrees if each file of the URI is left by both or by none. -/
theorem lastHash_eq {part part' : List (Str × ValidatedFile)} (hpart : part.Sublist pass.closed)
    (hpart' : part'.Sublist pass.closed) {uri : Str} {held : Option Nat}
    (h : ∀ entry ∈ pass.closed, entry.1 = uri →
      ((pass.lastHash diagnose part uri).or held =
        some (pass.diagnosed diagnose entry.2).payload.hash ↔
        (pass.lastHash diagnose part' uri).or held = some
        (pass.diagnosed diagnose entry.2).payload.hash)) :
    (pass.lastHash diagnose part uri).or held = (pass.lastHash diagnose part' uri).or held := by
  cases hlast : pass.lastHash diagnose part uri with
  | some hash =>
    obtain ⟨entry, hentry, huri, rfl⟩ := lastHash_eq_some hpart hlast
    rw [hlast] at h
    exact ((h entry hentry huri).mp rfl).symm
  | none =>
    cases hlast' : pass.lastHash diagnose part' uri with
    | none => rfl
    | some hash =>
      obtain ⟨entry, hentry, huri, rfl⟩ := lastHash_eq_some hpart' hlast'
      rw [hlast, hlast'] at h
      exact (h entry hentry huri).mpr rfl

/-- **In every run, a warm pass is the cold one** if and only if its state is settled. -/
theorem warmIsCold_iff_settled (hreach : Reachable diagnose server) (pass : Pass) :
    WarmIsCold diagnose server pass ↔ Settled diagnose server pass := by
  have hbehind : ∀ entry ∈ pass.closed, pass.publish = true →
      ((server.behind diagnose pass server.cache).published[entry.1]? =
          (pass.lastHash diagnose (pass.published server.cache) entry.1).or
            server.published[entry.1]? ∧
        (server.behind diagnose pass ∅).published[entry.1]? =
          (pass.lastHash diagnose pass.withinBudget entry.1).or server.published[entry.1]?) := by
    intro entry hmem hpublish
    rw [behind_getElem? hreach.cacheSound hmem, behind_getElem? (cacheSound_empty diagnose) hmem,
      published_empty, if_pos hpublish, if_pos hpublish]
    exact ⟨rfl, rfl⟩
  constructor
  · intro h hpublish entry hmem
    refine lastHash_eq ((List.take_sublist _ _).trans List.filter_sublist)
      (List.take_sublist _ _) ?_
    intro other hother huri
    have hheld := h.held other hother
    unfold LspServer.Holds at hheld
    rw [(hbehind other hother hpublish).1, (hbehind other hother hpublish).2, huri] at hheld
    exact hheld
  · intro hsettled
    refine ⟨summary_eq hreach.cacheSound pass, fun entry hmem => ?_⟩
    unfold LspServer.Holds
    by_cases hpublish : pass.publish = true
    · rw [(hbehind entry hmem hpublish).1, (hbehind entry hmem hpublish).2,
        hsettled hpublish entry hmem]
    · rw [behind_getElem? hreach.cacheSound hmem, behind_getElem? (cacheSound_empty diagnose) hmem,
        if_neg hpublish, if_neg hpublish]

end

/-! ## Three files -/

/-- A pass over three files with these contents. -/
def threeFiles (contents : Nat × Nat × Nat) (publish : Bool) : Pass where
  files := [⟨0, some ['a'], contents.1, none⟩, ⟨1, some ['b'], contents.2.1, none⟩,
    ⟨2, some ['c'], contents.2.2, none⟩]
  nodup := by
    show ([0, 1, 2] : List Nat).Nodup
    decide
  context := 0
  filters := 0
  publish
  live := [0, 1, 2]

/-- Every file has an error, and its own hash for every content. -/
def oneError : Nat → Nat → Nat → Nat → Diagnosed := fun id content _ _ =>
    ⟨[.error], ⟨[], 10 * id + content⟩⟩

/-- The server behind a pass that does not publish. -/
def unpublished : LspServer :=
  (⟨∅, ∅⟩ : LspServer).behind oneError (threeFiles (0, 0, 0) false) ∅

theorem unpublished_reachable : Reachable oneError unpublished :=
  .step .start (.pass (threeFiles (0, 0, 0) false))

/-- Where all of the files have changed, the next pass publishes them; where one has not, it is
passed over. -/
theorem unpublished_warmIsCold_iff : WarmIsCold oneError unpublished (threeFiles (1, 1, 2) true) ∧
    ¬ WarmIsCold oneError unpublished (threeFiles (1, 0, 2) true) := by
  rw [warmIsCold_iff_settled unpublished_reachable, warmIsCold_iff_settled unpublished_reachable]
  unfold Settled
  constructor <;> decide +kernel

/-- What a pass cached without publishing is not published by the next one, where one file of three
has changed. -/
theorem not_warmIsCold : ¬∀ (diagnose : Nat → Nat → Nat → Nat → Diagnosed) (server : LspServer)
    (pass : Pass), Reachable diagnose server → WarmIsCold diagnose server pass := by
  intro h
  have hheld := (h oneError unpublished (threeFiles (0, 1, 0) true) unpublished_reachable).held
    (['a'], ⟨0, some ['a'], 0, none⟩) List.mem_cons_self
  unfold LspServer.Holds at hheld
  revert hheld
  decide +kernel

end ParadoxCode.Pdc
