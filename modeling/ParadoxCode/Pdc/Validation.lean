import Std.Data.ExtTreeMap
import ParadoxCode.Lib.Loops
import ParadoxCode.Text

/-!
# Workspace validation passes

`workspace_validation_result` validates the files of a snapshot and reuses what earlier passes left
in the diagnostics cache; `publish_workspace_diagnostics` commits its result. The cache key is taken
to be sound: what is computed for a closed file is a function of its id, its content, the context
and the filters.
-/

namespace ParadoxCode.Pdc

/-- `MAX_WORKSPACE_DIAGNOSTIC_PUBLICATIONS`. -/
def maxPublications : Nat := 2000

/-- `MAX_WORKSPACE_DIAGNOSTIC_CLEARS`. -/
def maxClears : Nat := 2000

/-- `usize::saturating_add`. -/
def satAdd (n m : Nat) : Nat := min (n + m) (2 ^ 64 - 1)

theorem satAdd_satAdd (n m k : Nat) : satAdd (satAdd n m) k = satAdd n (m + k) := by
  unfold satAdd
  omega

/-! ## Diagnostics -/

inductive Severity where
  | error
  | warning
  | information
  | hint
  deriving DecidableEq

/-- A serialized list of diagnostics and its hash. -/
structure Payload where
  json : Str
  hash : Nat
  deriving DecidableEq

/-- What is computed for a file: its diagnostics behind the filters, and their serialization. -/
structure Diagnosed where
  severities : List Severity
  payload : Payload
  deriving DecidableEq

structure DiagnosticCounts where
  errors : Nat
  warnings : Nat
  infos : Nat
  hints : Nat
  hasError : Bool
  deriving DecidableEq

/-- The counts of a computed file. -/
def DiagnosticCounts.count (counts : DiagnosticCounts) : Severity → DiagnosticCounts
  | .error => { counts with errors := counts.errors + 1, hasError := true }
  | .warning => { counts with warnings := counts.warnings + 1 }
  | .information => { counts with infos := counts.infos + 1 }
  | .hint => { counts with hints := counts.hints + 1 }

def countsOf (severities : List Severity) : DiagnosticCounts :=
  severities.foldl DiagnosticCounts.count ⟨0, 0, 0, 0, false⟩

structure WorkspaceValidationSummary where
  totalFiles : Nat
  validatedFiles : Nat
  filesWithErrors : Nat
  totalErrors : Nat
  totalWarnings : Nat
  totalInfos : Nat
  totalHints : Nat
  deriving DecidableEq

namespace WorkspaceValidationSummary

/-- A diagnostic of a computed file. -/
def count (summary : WorkspaceValidationSummary) : Severity → WorkspaceValidationSummary
  | .error => { summary with totalErrors := satAdd summary.totalErrors 1 }
  | .warning => { summary with totalWarnings := satAdd summary.totalWarnings 1 }
  | .information => { summary with totalInfos := satAdd summary.totalInfos 1 }
  | .hint => { summary with totalHints := satAdd summary.totalHints 1 }

def validated (summary : WorkspaceValidationSummary) : WorkspaceValidationSummary :=
  { summary with validatedFiles := satAdd summary.validatedFiles 1 }

def fileHasError (summary : WorkspaceValidationSummary) (hasError : Bool) :
    WorkspaceValidationSummary :=
  if hasError then { summary with filesWithErrors := satAdd summary.filesWithErrors 1 } else summary

/-- A computed file is counted diagnostic by diagnostic. -/
def addComputed (summary : WorkspaceValidationSummary) (severities : List Severity) :
    WorkspaceValidationSummary :=
  (severities.foldl count summary.validated).fileHasError (countsOf severities).hasError

/-- The totals of a cached file are added at once. -/
def addTotals (summary : WorkspaceValidationSummary) (counts : DiagnosticCounts) :
    WorkspaceValidationSummary :=
  { summary with
    totalErrors := satAdd summary.totalErrors counts.errors
    totalWarnings := satAdd summary.totalWarnings counts.warnings
    totalInfos := satAdd summary.totalInfos counts.infos
    totalHints := satAdd summary.totalHints counts.hints }

def addReused (summary : WorkspaceValidationSummary) (counts : DiagnosticCounts) :
    WorkspaceValidationSummary :=
  (summary.validated.addTotals counts).fileHasError counts.hasError

end WorkspaceValidationSummary

/-! ## A pass -/

/-- `CachedWorkspaceDiagnostics`. -/
structure CachedWorkspaceDiagnostics where
  content : Nat
  context : Nat
  filters : Nat
  counts : DiagnosticCounts
  payload : Option Payload
  deriving DecidableEq

/-- `WorkspaceDiagnosticsCache`. -/
abbrev Cache := Std.ExtTreeMap Nat CachedWorkspaceDiagnostics

/-- A file of the pass: its id, the URI of its path where there is one, its content, and what is
computed for the document that is open for it. -/
structure ValidatedFile where
  id : Nat
  uri : Option Str
  content : Nat
  overlay : Option Diagnosed
  deriving DecidableEq

/-- What a pass is run on: the parsed Project files of the snapshot in their order, the fingerprints
of its context and of the filters, whether diagnostics are published, and the ids of all source
files. -/
structure Pass where
  files : List ValidatedFile
  nodup : (files.map ValidatedFile.id).Nodup
  context : Nat
  filters : Nat
  publish : Bool
  live : List Nat

structure WorkspaceDiagnosticPublication where
  uri : Str
  payload : Payload
  deriving DecidableEq

/-- `FileOutcome`. -/
inductive FileOutcome where
  | computed (diagnosed : Diagnosed) (closedUri : Option Str) (fileId content : Nat)
  | reused (uri : Str) (counts : DiagnosticCounts) (payload : Option Payload)

/-- `WorkspaceValidationResult` of a full pass, with the number of files published so far. -/
structure WorkspaceValidationResult where
  summary : WorkspaceValidationSummary
  publications : List WorkspaceDiagnosticPublication
  currentUris : List Str
  publishedFiles : Nat
  cacheUpdates : List (Nat × CachedWorkspaceDiagnostics)
  reusedFiles : Nat
  deriving DecidableEq

section

variable (diagnose : Nat → Nat → Nat → Nat → Diagnosed) (cache : Cache) (pass : Pass)

/-- What is computed for a closed file. -/
def Pass.diagnosed (file : ValidatedFile) : Diagnosed :=
  diagnose file.id file.content pass.context pass.filters

/-- The cached entry of a closed file, where its key is that of the pass. -/
def Pass.hit (file : ValidatedFile) : Option CachedWorkspaceDiagnostics :=
  cache[file.id]?.filter fun entry =>
    entry.content == file.content && entry.context == pass.context && entry.filters == pass.filters

/-- What a worker writes for a file. -/
def Pass.outcome (file : ValidatedFile) : FileOutcome :=
  match file.overlay with
  | some diagnosed => .computed diagnosed none file.id file.content
  | none =>
    match file.uri, pass.hit cache file with
    | some uri, some entry => .reused uri entry.counts entry.payload
    | closedUri, _ => .computed (pass.diagnosed diagnose file) closedUri file.id file.content

/-- A closed file that has a payload is published while the budget lasts. -/
def WorkspaceValidationResult.publish (result : WorkspaceValidationResult)
    (publish : Bool) (uri : Str) (payload : Payload) : WorkspaceValidationResult :=
  if publish = true ∧ result.publishedFiles < maxPublications then
    { result with
      publications := result.publications ++ [⟨uri, payload⟩]
      publishedFiles := satAdd result.publishedFiles 1 }
  else result

/-- The body of the loop over the outcomes. -/
def Pass.absorb (result : WorkspaceValidationResult) : FileOutcome → WorkspaceValidationResult
  | .reused uri counts payload =>
    let result := { result with
      reusedFiles := satAdd result.reusedFiles 1
      summary := result.summary.addReused counts
      currentUris := result.currentUris ++ [uri] }
    match payload with
    | some payload => result.publish pass.publish uri payload
    | none => result
  | .computed diagnosed closedUri fileId content =>
    let result := { result with summary := result.summary.addComputed diagnosed.severities }
    match closedUri with
    | none => result
    | some uri =>
      let cached := if pass.publish = true ∧ result.publishedFiles < maxPublications then
        some diagnosed.payload else none
      { { result with currentUris := result.currentUris ++ [uri] }.publish pass.publish uri
        diagnosed.payload with
        cacheUpdates := result.cacheUpdates ++ [(fileId, ⟨content, pass.context, pass.filters,
          countsOf diagnosed.severities, cached⟩)] }

/-- `workspace_validation_result`. -/
def Pass.validationResult : WorkspaceValidationResult :=
  (pass.files.map (pass.outcome diagnose cache)).foldl pass.absorb
    ⟨⟨pass.files.length, 0, 0, 0, 0, 0, 0⟩, [], [], 0, [], 0⟩

end

/-! ## The server -/

/-- What the server holds between passes: of each closed file that the client has diagnostics of the
hash of what was sent, and the cache. -/
structure LspServer where
  published : Std.ExtTreeMap Str Nat
  cache : Cache

/-- A publication is sent unless the last one of the URI had its hash. -/
def send (published : Std.ExtTreeMap Str Nat) (publication : WorkspaceDiagnosticPublication) :
    Std.ExtTreeMap Str Nat :=
  if published[publication.uri]? = some publication.payload.hash then published
  else published.insert publication.uri publication.payload.hash

/-- The files that left the workspace are cleared, up to the limit. -/
def clearStale (published : Std.ExtTreeMap Str Nat) (current : List Str) : Std.ExtTreeMap Str Nat :=
  ((published.keys.filter fun uri => !current.contains uri).take maxClears).foldl
    (fun held uri => held.erase uri) published

/-- `publish_workspace_diagnostics`, for a full pass. -/
def LspServer.commit (server : LspServer) (live : List Nat) (result : WorkspaceValidationResult) :
    LspServer where
  published := result.publications.foldl send (clearStale server.published result.currentUris)
  cache := (result.cacheUpdates.foldl (fun cache update => cache.insert update.1 update.2)
    server.cache).filter
    fun id _ => live.contains id

/-- The steps of the server that touch what is published or the cache. -/
inductive Step (diagnose : Nat → Nat → Nat → Nat → Diagnosed) (server : LspServer) :
    LspServer → Prop
  /-- A full pass, whose result is committed. -/
  | pass (pass : Pass) : Step diagnose server
      (server.commit pass.live (pass.validationResult diagnose server.cache))
  /-- `changed_files_validation_result` publishes the files of a batch and caches nothing. -/
  | changedFiles (publications : List WorkspaceDiagnosticPublication) :
    Step diagnose server { server with published := publications.foldl send server.published }
  /-- `clear_workspace_diagnostic_uri`. -/
  | didOpen (uri : Str) : Step diagnose server
      { server with published := server.published.erase uri }
  /-- Workspace-wide diagnostics are switched off. -/
  | disable : Step diagnose server { server with published := ∅ }

/-- A server that has run from its start. -/
inductive Reachable (diagnose : Nat → Nat → Nat → Nat → Diagnosed) : LspServer → Prop
  | start : Reachable diagnose ⟨∅, ∅⟩
  | step {server after : LspServer} (h : Reachable diagnose server)
      (hstep : Step diagnose server after) :
    Reachable diagnose after

/-! ## Summaries -/

namespace WorkspaceValidationSummary

/-- The totals are machine words. -/
structure Fits (summary : WorkspaceValidationSummary) : Prop where
  errors : summary.totalErrors ≤ 2 ^ 64 - 1
  warnings : summary.totalWarnings ≤ 2 ^ 64 - 1
  infos : summary.totalInfos ≤ 2 ^ 64 - 1
  hints : summary.totalHints ≤ 2 ^ 64 - 1

theorem count_addTotals (summary : WorkspaceValidationSummary) (counts : DiagnosticCounts)
    (severity : Severity) :
    (summary.addTotals counts).count severity = summary.addTotals (counts.count severity) := by
  cases severity <;> simp only [addTotals, count, DiagnosticCounts.count, satAdd_satAdd]

theorem foldl_count (severities : List Severity) (summary : WorkspaceValidationSummary)
    (counts : DiagnosticCounts) :
    severities.foldl count (summary.addTotals counts) =
      summary.addTotals (severities.foldl DiagnosticCounts.count counts) := by
  induction severities generalizing counts with
  | nil => rfl
  | cons severity severities ih => rw [List.foldl_cons, List.foldl_cons, count_addTotals, ih]

theorem Fits.addTotals_zero {summary : WorkspaceValidationSummary} (h : summary.Fits) :
    summary.addTotals ⟨0, 0, 0, 0, false⟩ = summary := by
  obtain ⟨he, hw, hi, hh⟩ := h
  cases summary
  simp only [addTotals, satAdd, Nat.add_zero, Nat.min_eq_left he, Nat.min_eq_left hw,
    Nat.min_eq_left hi, Nat.min_eq_left hh]

/-- Counting diagnostic by diagnostic adds the totals of the file. -/
theorem Fits.addComputed_eq {summary : WorkspaceValidationSummary} (h : summary.Fits)
    (severities : List Severity) :
    summary.addComputed severities = summary.addReused (countsOf severities) := by
  have hvalidated : summary.validated.Fits := ⟨h.errors, h.warnings, h.infos, h.hints⟩
  unfold addComputed addReused countsOf
  rw [← foldl_count, hvalidated.addTotals_zero]

theorem fits_addReused (summary : WorkspaceValidationSummary) (counts : DiagnosticCounts) :
    (summary.addReused counts).Fits := by
  unfold addReused fileHasError
  split_ifs <;> exact ⟨Nat.min_le_right _ _, Nat.min_le_right _ _, Nat.min_le_right _ _,
    Nat.min_le_right _ _⟩

end WorkspaceValidationSummary

/-! ## What a pass gives -/

/-- Every cached entry holds what is computed under its key. -/
def CacheSound (diagnose : Nat → Nat → Nat → Nat → Diagnosed) (cache : Cache) : Prop :=
  ∀ (id : Nat) (entry : CachedWorkspaceDiagnostics), cache[id]? = some entry →
    entry.counts = countsOf (diagnose id entry.content entry.context entry.filters).severities ∧
      ∀ payload ∈ entry.payload, payload =
        (diagnose id entry.content entry.context entry.filters).payload

theorem cacheSound_empty (diagnose : Nat → Nat → Nat → Nat → Diagnosed) :
    CacheSound diagnose ∅ := by
  intro id entry h
  rw [Std.ExtTreeMap.getElem?_empty] at h
  cases h

/-- The URI of a closed file. -/
def ValidatedFile.closedUri (file : ValidatedFile) : Option Str := if file.overlay = none then
    file.uri else none

section

variable {diagnose : Nat → Nat → Nat → Nat → Diagnosed} {cache : Cache} {pass : Pass}

/-- What is counted for a file. -/
def Pass.severities (diagnose : Nat → Nat → Nat → Nat → Diagnosed) (pass : Pass)
    (file : ValidatedFile) : List Severity :=
  (file.overlay.getD (pass.diagnosed diagnose file)).severities

/-- A cached file without a payload is never published. -/
def Pass.blocked (cache : Cache) (pass : Pass) (file : ValidatedFile) : Bool :=
  (pass.hit cache file).any fun entry => entry.payload.isNone

theorem hit_eq_some {file : ValidatedFile} {entry : CachedWorkspaceDiagnostics}
    (h : pass.hit cache file = some entry) :
    cache[file.id]? = some entry ∧ entry.content = file.content ∧ entry.context = pass.context ∧
      entry.filters = pass.filters := by
  obtain ⟨hentry, hkey⟩ := Option.filter_eq_some_iff.mp h
  simp only [Bool.and_eq_true, beq_iff_eq] at hkey
  exact ⟨hentry, hkey.1.1, hkey.1.2, hkey.2⟩

theorem CacheSound.hit (h : CacheSound diagnose cache) {file : ValidatedFile}
    {entry : CachedWorkspaceDiagnostics} (hhit : pass.hit cache file = some entry) :
    entry.counts = countsOf (pass.diagnosed diagnose file).severities ∧
      ∀ payload ∈ entry.payload, payload = (pass.diagnosed diagnose file).payload := by
  obtain ⟨hentry, hcontent, hcontext, hfilters⟩ := hit_eq_some hhit
  have hsound := h file.id entry hentry
  rwa [hcontent, hcontext, hfilters] at hsound

/-- The outcomes of a file. -/
theorem outcome_cases (diagnose : Nat → Nat → Nat → Nat → Diagnosed) (cache : Cache) (pass : Pass)
    (file : ValidatedFile) :
    (file.closedUri = none ∧ ∃ diagnosed, pass.outcome diagnose cache file =
      .computed diagnosed none file.id file.content ∧
      diagnosed.severities = pass.severities diagnose file) ∨
    ∃ uri, file.closedUri = some uri ∧ pass.severities diagnose file =
      (pass.diagnosed diagnose file).severities ∧
      ((pass.hit cache file = none ∧ pass.outcome diagnose cache file =
          .computed (pass.diagnosed diagnose file) (some uri) file.id file.content) ∨
        ∃ entry, pass.hit cache file = some entry ∧
          pass.outcome diagnose cache file = .reused uri entry.counts entry.payload) := by
  unfold Pass.outcome ValidatedFile.closedUri Pass.severities
  cases file.overlay with
  | some diagnosed => exact .inl ⟨rfl, diagnosed, rfl, rfl⟩
  | none =>
    rw [if_pos rfl]
    cases file.uri with
    | none => exact .inl ⟨rfl, _, rfl, rfl⟩
    | some uri =>
      refine .inr ⟨uri, rfl, rfl, ?_⟩
      cases pass.hit cache file with
      | none => exact .inl ⟨rfl, rfl⟩
      | some entry => exact .inr ⟨entry, rfl, rfl⟩

/-- What a pass publishes of a file within the budget. -/
def Pass.publication (diagnose : Nat → Nat → Nat → Nat → Diagnosed) (cache : Cache) (pass : Pass)
    (file : ValidatedFile) : Option WorkspaceDiagnosticPublication :=
  if pass.blocked cache file then none
  else file.closedUri.map fun uri => ⟨uri, (pass.diagnosed diagnose file).payload⟩

/-- A cache update holds what is computed under its key. -/
def UpdateSound (diagnose : Nat → Nat → Nat → Nat → Diagnosed)
    (update : Nat × CachedWorkspaceDiagnostics) : Prop :=
  update.2.counts = countsOf (diagnose update.1 update.2.content update.2.context
    update.2.filters).severities ∧ ∀ payload ∈ update.2.payload,
      payload = (diagnose update.1 update.2.content update.2.context update.2.filters).payload

/-- What is left behind a file. -/
structure Absorbs (diagnose : Nat → Nat → Nat → Nat → Diagnosed) (cache : Cache) (pass : Pass)
    (result : WorkspaceValidationResult) (files : List ValidatedFile)
    (after : WorkspaceValidationResult) : Prop where
  summary : after.summary =
    files.foldl (fun summary file => summary.addReused (countsOf (pass.severities diagnose file)))
      result.summary
  currentUris : after.currentUris = result.currentUris ++ files.filterMap ValidatedFile.closedUri
  publications : after.publications = result.publications ++
    if pass.publish = true then
      (files.filterMap (pass.publication diagnose cache)).take
        (maxPublications - result.publishedFiles)
    else []
  publishedFiles : result.publications.length + after.publishedFiles =
    result.publishedFiles + after.publications.length
  cacheUpdates : (∀ update ∈ result.cacheUpdates, UpdateSound diagnose update) →
    ∀ update ∈ after.cacheUpdates, UpdateSound diagnose update

theorem publish_publications (result : WorkspaceValidationResult) (publish : Bool) (uri : Str)
    (payload : Payload) :
    (result.publish publish uri payload).publications = result.publications ++
      if publish = true then [⟨uri, payload⟩].take (maxPublications - result.publishedFiles) else
        [] := by
  unfold WorkspaceValidationResult.publish
  by_cases hpublish : publish = true
  · by_cases hlt : result.publishedFiles < maxPublications
    · rw [if_pos ⟨hpublish, hlt⟩, if_pos hpublish, List.take_of_length_le]
      show 1 ≤ _
      omega
    · rw [if_neg (fun h => hlt h.2), if_pos hpublish, Nat.sub_eq_zero_of_le (by omega),
        List.take_zero, List.append_nil]
  · rw [if_neg (fun h => hpublish h.1), if_neg hpublish, List.append_nil]

theorem publish_publishedFiles (result : WorkspaceValidationResult) (publish : Bool) (uri : Str)
    (payload : Payload) :
    result.publications.length + (result.publish publish uri payload).publishedFiles =
      result.publishedFiles + (result.publish publish uri payload).publications.length := by
  unfold WorkspaceValidationResult.publish
  split_ifs with h
  · have hlt : result.publishedFiles < 2000 := h.2
    have hsat : satAdd result.publishedFiles 1 = result.publishedFiles + 1 := by
      unfold satAdd
      omega
    show _ + satAdd result.publishedFiles 1 = _ + (result.publications ++ [_]).length
    rw [hsat, List.length_append, List.length_singleton]
    omega
  · exact Nat.add_comm _ _

theorem publish_summary (result : WorkspaceValidationResult) (publish : Bool) (uri : Str)
    (payload : Payload) :
    (result.publish publish uri payload).summary = result.summary ∧
      (result.publish publish uri payload).currentUris = result.currentUris ∧
      (result.publish publish uri payload).cacheUpdates = result.cacheUpdates := by
  unfold WorkspaceValidationResult.publish
  split_ifs <;> exact ⟨rfl, rfl, rfl⟩

/-- One file. -/
theorem absorb_spec (hsound : CacheSound diagnose cache) {result : WorkspaceValidationResult}
    (hfits : result.summary.Fits) (file : ValidatedFile) :
    Absorbs diagnose cache pass result [file]
      (pass.absorb result (pass.outcome diagnose cache file)) := by
  obtain ⟨huri, diagnosed, houtcome, hseverities⟩ | ⟨uri, huri, hseverities,
    ⟨hhit, houtcome⟩ | ⟨entry, hhit, houtcome⟩⟩ :=
    outcome_cases diagnose cache pass file
  · have hnone : pass.publication diagnose cache file = none := by
      unfold Pass.publication
      rw [huri]
      split_ifs <;> rfl
    rw [houtcome]
    refine ⟨?_, ?_, ?_, Nat.add_comm _ _, id⟩
    · show result.summary.addComputed diagnosed.severities = _
      rw [hfits.addComputed_eq, hseverities]
      rfl
    · rw [List.filterMap_cons_none huri, List.filterMap_nil, List.append_nil]
      rfl
    · rw [List.filterMap_cons_none hnone, List.filterMap_nil, List.take_nil, ite_self,
        List.append_nil]
      rfl
  · have hsome : pass.publication diagnose cache file =
      some ⟨uri, (pass.diagnosed diagnose file).payload⟩ := by
      unfold Pass.publication Pass.blocked
      rw [hhit, huri]
      rfl
    rw [houtcome]
    obtain ⟨hsummary, hcurrent, hupdates⟩ := publish_summary
      { result with
        summary := result.summary.addComputed (pass.diagnosed diagnose file).severities
        currentUris := result.currentUris ++ [uri] } pass.publish uri
          (pass.diagnosed diagnose file).payload
    refine ⟨?_, ?_, ?_, ?_, ?_⟩
    · refine hsummary.trans ?_
      show result.summary.addComputed (pass.diagnosed diagnose file).severities = _
      rw [hfits.addComputed_eq, ← hseverities]
      rfl
    · rw [List.filterMap_cons_some huri, List.filterMap_nil]
      exact hcurrent
    · rw [List.filterMap_cons_some hsome, List.filterMap_nil]
      exact publish_publications _ _ _ _
    · exact publish_publishedFiles
        { result with
          summary := result.summary.addComputed (pass.diagnosed diagnose file).severities
          currentUris := result.currentUris ++ [uri] } pass.publish uri
            (pass.diagnosed diagnose file).payload
    · intro hbefore update hmem
      rcases List.mem_append.mp hmem with hmem | hmem
      · exact hbefore update hmem
      · obtain rfl := List.mem_singleton.mp hmem
        refine ⟨rfl, ?_⟩
        intro payload hpayload
        dsimp only at hpayload
        split_ifs at hpayload
        · exact (Option.some.inj hpayload).symm
        · cases hpayload
  · obtain ⟨hcounts, hpayload⟩ := hsound.hit hhit
    rw [houtcome]
    have hsummary : result.summary.addReused entry.counts =
        [file].foldl (fun summary file => summary.addReused
          (countsOf (pass.severities diagnose file)))
          result.summary := by
      rw [hcounts, ← hseverities]
      rfl
    cases hstored : entry.payload with
    | none =>
      have hnone : pass.publication diagnose cache file = none := by
        unfold Pass.publication Pass.blocked
        rw [hhit, if_pos (by rw [Option.any_some, hstored]; rfl)]
      refine ⟨hsummary, ?_, ?_, Nat.add_comm _ _, id⟩
      · rw [List.filterMap_cons_some huri, List.filterMap_nil]
        rfl
      · rw [List.filterMap_cons_none hnone, List.filterMap_nil, List.take_nil, ite_self,
          List.append_nil]
        rfl
    | some payload =>
      have hsome : pass.publication diagnose cache file = some ⟨uri, payload⟩ := by
        unfold Pass.publication Pass.blocked
        rw [hhit, if_neg (by rw [Option.any_some, hstored]; exact Bool.false_ne_true), huri,
          hpayload payload hstored]
        rfl
      obtain ⟨hsame, hcurrent, hupdates⟩ := publish_summary
        { result with
          reusedFiles := satAdd result.reusedFiles 1
          summary := result.summary.addReused entry.counts
          currentUris := result.currentUris ++ [uri] } pass.publish uri payload
      refine ⟨hsame.trans hsummary, ?_, ?_, ?_, ?_⟩
      · rw [List.filterMap_cons_some huri, List.filterMap_nil]
        exact hcurrent
      · rw [List.filterMap_cons_some hsome, List.filterMap_nil]
        exact publish_publications _ _ _ _
      · exact publish_publishedFiles
          { result with
            reusedFiles := satAdd result.reusedFiles 1
            summary := result.summary.addReused entry.counts
            currentUris := result.currentUris ++ [uri] } pass.publish uri payload
      · intro hbefore update hmem
        exact hbefore update (hupdates ▸ hmem)

theorem Absorbs.nil (result : WorkspaceValidationResult) :
    Absorbs diagnose cache pass result [] result := by
  refine ⟨rfl, ?_, ?_, Nat.add_comm _ _, id⟩
  · rw [List.filterMap_nil, List.append_nil]
  · rw [List.filterMap_nil, List.take_nil, ite_self, List.append_nil]

theorem Absorbs.cons {result middle after : WorkspaceValidationResult} {file : ValidatedFile}
    {files : List ValidatedFile} (h : Absorbs diagnose cache pass result [file] middle)
    (h' : Absorbs diagnose cache pass middle files after) :
    Absorbs diagnose cache pass result (file :: files) after := by
  refine ⟨?_, ?_, ?_, ?_, fun hbefore => h'.cacheUpdates (h.cacheUpdates hbefore)⟩
  · rw [h'.summary, h.summary]
    rfl
  · rw [h'.currentUris, h.currentUris, List.append_assoc, ← List.filterMap_append]
    rfl
  · have hmiddle := h.publications
    have hcount := h.publishedFiles
    rw [h'.publications, hmiddle, List.append_assoc]
    refine congrArg (result.publications ++ ·) ?_
    split_ifs at hmiddle ⊢
    · have hlength := congrArg List.length hmiddle
      rw [List.length_append] at hlength
      rw [show file :: files = [file] ++ files from rfl, List.filterMap_append, List.take_append]
      refine congrArg (_ ++ List.take · _) ?_
      rw [List.length_take] at hlength
      omega
    · rfl
  · have := h.publishedFiles
    have := h'.publishedFiles
    omega

/-- The files of a pass, one after the other. -/
theorem absorb_files (hsound : CacheSound diagnose cache) (files : List ValidatedFile)
    {result : WorkspaceValidationResult} (hfits : result.summary.Fits) :
    Absorbs diagnose cache pass result files
      ((files.map (pass.outcome diagnose cache)).foldl pass.absorb result) := by
  induction files generalizing result with
  | nil => exact .nil result
  | cons file files ih =>
    have hfile := @absorb_spec _ _ pass hsound _ hfits file
    refine hfile.cons (ih ?_)
    rw [hfile.summary]
    exact WorkspaceValidationSummary.fits_addReused _ _

/-- What a pass gives: the summary and the URIs do not depend on the cache. -/
theorem validationResult_spec (hsound : CacheSound diagnose cache) (pass : Pass) :
    Absorbs diagnose cache pass ⟨⟨pass.files.length, 0, 0, 0, 0, 0, 0⟩, [], [], 0, [], 0⟩ pass.files
      (pass.validationResult diagnose cache) :=
  absorb_files hsound pass.files ⟨Nat.zero_le _, Nat.zero_le _, Nat.zero_le _, Nat.zero_le _⟩

end

/-! ## Runs -/

section

variable {diagnose : Nat → Nat → Nat → Nat → Diagnosed}

/-- A committed pass keeps the cache sound. -/
theorem CacheSound.commit {server : LspServer} (h : CacheSound diagnose server.cache)
    (live : List Nat) {result : WorkspaceValidationResult}
    (hupdates : ∀ update ∈ result.cacheUpdates, UpdateSound diagnose update) :
    CacheSound diagnose (server.commit live result).cache := by
  have hinserted : CacheSound diagnose
      (result.cacheUpdates.foldl (fun cache update => cache.insert update.1 update.2)
        server.cache) := by
    generalize server.cache = cache at h
    generalize result.cacheUpdates = updates at hupdates
    induction updates generalizing cache with
    | nil => exact h
    | cons update updates ih =>
      refine ih _ ?_ (fun other hother => hupdates other (List.mem_cons_of_mem _ hother))
      intro id entry hentry
      rw [NatMap.getElem?_insert] at hentry
      split_ifs at hentry with hid
      · cases hentry
        subst hid
        exact hupdates update List.mem_cons_self
      · exact h id entry hentry
  intro id entry hentry
  rw [LspServer.commit, NatMap.getElem?_filter] at hentry
  split_ifs at hentry
  exact hinserted id entry hentry

/-- Steps keep the cache sound. -/
theorem Step.cacheSound {server after : LspServer} (hstep : Step diagnose server after)
    (h : CacheSound diagnose server.cache) : CacheSound diagnose after.cache := by
  cases hstep with
  | pass pass =>
    exact h.commit pass.live ((validationResult_spec h pass).cacheUpdates
      (fun update hmem => absurd hmem List.not_mem_nil))
  | changedFiles => exact h
  | didOpen => exact h
  | disable => exact h

theorem Reachable.cacheSound {server : LspServer} (h : Reachable diagnose server) :
    CacheSound diagnose server.cache := by
  induction h with
  | start => exact cacheSound_empty diagnose
  | step _ hstep ih => exact hstep.cacheSound ih

end

end ParadoxCode.Pdc
