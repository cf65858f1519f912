import ParadoxCode.Hir.RenderExpanded

/-!
# Reusing frames

Whatever the caches of an expansion have room for, it returns the same.

1. A cache is valid if each of its entries is what its key gives anew. Looking something up keeps a
   cache valid and finds what is found without it (`lookupRender_valid`, `lookupHir_valid`).
2. Two expansions that differ in valid caches take the same steps (`step_forget`, `run_forget`).
-/

namespace ParadoxCode.Hir

open ParadoxCode.Parser Rules

namespace RenderWorld

variable (world : RenderWorld) (byteLimit : Nat)

/-! ## What is found without a cache -/

/-- The properties of a text and the text with the frontier of its parse. -/
def freshHir (schema : SchemaId) (state : ScopeState) (rendered : RenderedText) :
    Option (Option HirFile × RenderedText) := do
  let progress ← parsePrefix byteLimit rendered.text
  let rendered := withFrontier rendered progress.frontier
  match progress.parsed with
  | none => some (none, rendered)
  | some parsed => do
    let hir ← world.lowerFile parsed schema state rendered.trialHoles
    some (some hir, rendered)

/-- Every entry of the cache is what its key gives: a text without limits, and properties of a text
that is parsed to its end. -/
structure Valid (cache : FrameCache) : Prop where
  renders : ∀ key rendered, cache.renders.lookup key = some rendered →
    world.render byteLimit key = some rendered
  hirs : ∀ key hir, cache.hirs.lookup key = some hir → ∃ parsed,
    parsePrefix byteLimit key.text = some ⟨some parsed, none⟩ ∧
      world.lowerFile parsed key.schema key.state key.holes = some hir

variable {world byteLimit} {cache : FrameCache}

theorem valid_empty : world.Valid byteLimit {} where
  renders := by
    intro key rendered h
    cases h
  hirs := by
    intro key hir h
    cases h

theorem Valid.insert_render (h : world.Valid byteLimit cache) {key : RenderKey}
    {rendered : RenderedText}
    (hrender : world.render byteLimit key = some rendered) (bytes : Nat) :
    world.Valid byteLimit
      { cache with bytes := bytes, renders := (key, rendered) :: cache.renders } where
  hirs := h.hirs
  renders other found hfound := by
    rw [List.lookup_cons] at hfound
    split at hfound
    · rename_i heq
      rw [eq_of_beq heq, hrender, hfound]
    · exact h.renders other found hfound

theorem Valid.insert_hir (h : world.Valid byteLimit cache) {key : FrameKey} {hir : HirFile}
    {parsed : ParsedFile} (hparse : parsePrefix byteLimit key.text = some ⟨some parsed, none⟩)
    (hlower : world.lowerFile parsed key.schema key.state key.holes = some hir) (bytes : Nat) :
    world.Valid byteLimit { cache with bytes := bytes, hirs := (key, hir) :: cache.hirs } where
  renders := h.renders
  hirs other found hfound := by
    rw [List.lookup_cons] at hfound
    split at hfound
    · rename_i heq
      obtain rfl := Option.some.inj hfound
      rw [eq_of_beq heq]
      exact ⟨parsed, hparse, hlower⟩
    · exact h.hirs other found hfound

/-- A text is found as it is rendered, and the cache stays valid. -/
theorem lookupRender_valid (h : world.Valid byteLimit cache) (cacheBytes : Nat) (key : RenderKey) :
    (world.lookupRender byteLimit cacheBytes cache key).map Prod.fst = world.render byteLimit key ∧
      ∀ found, world.lookupRender byteLimit cacheBytes cache key = some found →
        world.Valid byteLimit found.2 := by
  unfold lookupRender
  cases hlookup : cache.renders.lookup key with
  | some rendered =>
    refine ⟨(h.renders key rendered hlookup).symm, ?_⟩
    rintro found hfound
    obtain rfl := Option.some.inj hfound
    exact h
  | none =>
    cases hrender : world.render byteLimit key with
    | none => exact ⟨rfl, fun found hfound => (nomatch hfound)⟩
    | some rendered =>
      dsimp only [Option.bind_eq_bind, Option.bind_some]
      split
      · refine ⟨rfl, fun found hfound => ?_⟩
        obtain rfl := Option.some.inj hfound
        exact h.insert_render hrender _
      · refine ⟨rfl, fun found hfound => ?_⟩
        obtain rfl := Option.some.inj hfound
        exact h

/-- Properties are found as they are lowered, and the cache stays valid. -/
theorem lookupHir_valid (h : world.Valid byteLimit cache) (cacheBytes : Nat) (schema : SchemaId)
    (state : ScopeState) (rendered : RenderedText) :
    (world.lookupHir byteLimit cacheBytes cache schema state rendered).map
        (fun found => (found.1, found.2.1)) = world.freshHir byteLimit schema state rendered ∧
      ∀ found, world.lookupHir byteLimit cacheBytes cache schema state rendered = some found →
        world.Valid byteLimit found.2.2 := by
  unfold lookupHir freshHir
  dsimp only
  cases hlookup : cache.hirs.lookup ⟨schema, state, rendered.trialHoles, rendered.text⟩ with
  | some hir =>
    obtain ⟨parsed, hparse, hlower⟩ := h.hirs _ hir hlookup
    dsimp only at hparse hlower
    refine ⟨?_, fun found hfound => ?_⟩
    · rw [hparse]
      show some (some hir, rendered) =
        (world.lowerFile parsed schema state rendered.trialHoles).bind _
      rw [hlower]
      rfl
    · obtain rfl := Option.some.inj hfound
      exact h
  | none =>
    cases hparse : parsePrefix byteLimit rendered.text with
    | none => exact ⟨rfl, fun found hfound => (nomatch hfound)⟩
    | some progress =>
      obtain ⟨parsed, frontier⟩ := progress
      dsimp only [Option.bind_eq_bind, Option.bind_some]
      cases parsed with
      | none =>
        refine ⟨rfl, fun found hfound => ?_⟩
        obtain rfl := Option.some.inj hfound
        exact h
      | some parsed =>
        dsimp only
        cases hlower : world.lowerFile parsed schema state
          (withFrontier rendered frontier).trialHoles with
        | none => exact ⟨rfl, fun found hfound => (nomatch hfound)⟩
        | some hir =>
          dsimp only [Option.bind_some]
          split
          · rename_i hcost
            refine ⟨rfl, fun found hfound => ?_⟩
            obtain rfl := Option.some.inj hfound
            -- what is stored has no frontier, so that its holes are those of the key
            obtain rfl : frontier = none := hcost.1
            exact h.insert_hir hparse hlower _
          · refine ⟨rfl, fun found hfound => ?_⟩
            obtain rfl := Option.some.inj hfound
            exact h

/-! ## Steps -/

/-- An expansion without its caches. -/
def forget (expansion : Expansion) : Expansion := { expansion with cache := {} }

/-- The outcome of a round without the caches. -/
def forgetStep : ExpansionStep → ExpansionStep
  | .stop output => .stop output
  | .next expansion => .next (forget expansion)

variable (world byteLimit)

/-- A round that enters a frame, without caches. -/
def enterFresh (frame : Frame) (expansion : Expansion) : Option ExpansionStep :=
  if expansion.frames + 1 > 100000 then some (.stop (expansion.output.cut .nodes))
  else
    let identity := world.identity frame
    if identity ∈ expansion.visiting then some (.stop (expansion.output.cut .recursiveState))
    else do
      let rendered ← world.render byteLimit
        ⟨frame.template, frame.schema, frame.bindings, frame.raw, frame.present⟩
      let rendered ← annotate frame rendered
      let processedBytes := saturate (expansion.processedBytes + byteLen rendered.text)
      if processedBytes > saturate (byteLimit * 16) then
        some (.stop (expansion.output.cut .textBytes))
      else do
        let output := { expansion.output with
          coverage := expansion.output.coverage.merge rendered.coverage }
        let (hir, rendered) ← world.freshHir byteLimit frame.schema frame.state rendered
        match hir with
        | none =>
          some (.stop { output with
            coverage := output.coverage.merge rendered.coverage
            frontiers := output.frontiers ++ [asU32 (byteLen output.text)] })
        | some hir =>
          world.pushTasks frame hir rendered
            { output := output
              work := .exit identity :: expansion.work
              frames := expansion.frames + 1
              processedBytes := processedBytes
              visiting := insert identity expansion.visiting }

variable {world byteLimit} {expansion : Expansion}

/-- The tasks of a frame do not depend on the caches. -/
theorem pushTasks_forget (frame : Frame) (hir : HirFile) (rendered : RenderedText) :
    (world.pushTasks frame hir rendered expansion).map forgetStep =
      world.pushTasks frame hir rendered (forget expansion) := by
  unfold pushTasks
  rw [Option.map_map]
  rfl

theorem pushTasks_cache {frame : Frame} {hir : HirFile} {rendered : RenderedText} {next : Expansion}
    (h : world.pushTasks frame hir rendered expansion = some (.next next)) :
    next.cache = expansion.cache := by
  unfold pushTasks at h
  obtain ⟨tasks, -, h⟩ := Option.map_eq_some_iff.mp h
  rw [← ExpansionStep.next.inj h]

theorem enter_forget (h : world.Valid byteLimit expansion.cache) (cacheBytes : Nat)
    (frame : Frame) :
    (world.enter byteLimit cacheBytes frame expansion).map forgetStep =
        world.enterFresh byteLimit frame (forget expansion) ∧
      ∀ next, world.enter byteLimit cacheBytes frame expansion = some (.next next) →
        world.Valid byteLimit next.cache := by
  unfold enter enterFresh
  dsimp only
  by_cases hframes : expansion.frames + 1 > 100000
  · rw [if_pos hframes, if_pos (show (forget expansion).frames + 1 > 100000 from hframes)]
    exact ⟨rfl, fun next hnext => (by cases hnext)⟩
  rw [if_neg hframes, if_neg (show ¬(forget expansion).frames + 1 > 100000 from hframes)]
  by_cases hvisiting : world.identity frame ∈ expansion.visiting
  · rw [if_pos hvisiting, if_pos (show world.identity frame ∈
      (forget expansion).visiting from hvisiting)]
    exact ⟨rfl, fun next hnext => (by cases hnext)⟩
  rw [if_neg hvisiting, if_neg (show world.identity frame ∉
    (forget expansion).visiting from hvisiting)]
  -- the text of the frame
  obtain ⟨hfst, hvalid⟩ := lookupRender_valid h cacheBytes
    ⟨frame.template, frame.schema, frame.bindings, frame.raw, frame.present⟩
  rw [← hfst]
  cases hrender : world.lookupRender byteLimit cacheBytes expansion.cache
      ⟨frame.template, frame.schema, frame.bindings, frame.raw, frame.present⟩ with
  | none => exact ⟨rfl, fun next hnext => (by cases hnext)⟩
  | some found =>
    obtain ⟨rendered, cache⟩ := found
    have hcache := hvalid _ hrender
    simp only [Option.bind_eq_bind, Option.bind_some, Option.map_some]
    cases annotate frame rendered with
    | none => exact ⟨rfl, fun next hnext => (by cases hnext)⟩
    | some rendered =>
      simp only [Option.bind_some]
      by_cases hbytes : saturate (expansion.processedBytes + byteLen rendered.text) > saturate
        (byteLimit * 16)
      · rw [if_pos hbytes,
          if_pos (show saturate ((forget expansion).processedBytes + byteLen rendered.text) >
          saturate (byteLimit * 16) from hbytes)]
        exact ⟨rfl, fun next hnext => (by cases hnext)⟩
      rw [if_neg hbytes,
        if_neg (show ¬saturate ((forget expansion).processedBytes + byteLen rendered.text) >
        saturate (byteLimit * 16) from hbytes)]
      -- its properties
      obtain ⟨hfst, hvalid⟩ := lookupHir_valid hcache cacheBytes frame.schema frame.state
        rendered
      rw [← hfst]
      cases hhir : world.lookupHir byteLimit cacheBytes cache frame.schema frame.state rendered with
      | none => exact ⟨rfl, fun next hnext => (by cases hnext)⟩
      | some found =>
        obtain ⟨hir, rendered, cache⟩ := found
        simp only [Option.bind_some, Option.map_some]
        cases hir with
        | none => exact ⟨rfl, fun next hnext => (by cases hnext)⟩
        | some hir =>
          refine ⟨pushTasks_forget frame hir rendered, fun next hnext => ?_⟩
          rw [pushTasks_cache hnext]
          exact hvalid _ hhir

variable (world byteLimit)

/-- A round without caches. -/
def stepFresh (expansion : Expansion) (task : RenderTask) : Option ExpansionStep :=
  match task with
  | .exit identity => some (.next { expansion with visiting := expansion.visiting.erase identity })
  | .emit source range influence =>
    (appendSlice expansion.output source range influence byteLimit).map fun (appended, output) =>
      if appended then .next { expansion with output := output } else .stop output
  | .enter frame => world.enterFresh byteLimit frame expansion

variable {world byteLimit}

/-- A round does the same with valid caches and without, and leaves valid caches. -/
theorem step_forget (h : world.Valid byteLimit expansion.cache) (cacheBytes : Nat)
    (task : RenderTask) :
    (world.step byteLimit cacheBytes expansion task).map forgetStep =
        world.stepFresh byteLimit (forget expansion) task ∧
      ∀ next, world.step byteLimit cacheBytes expansion task = some (.next next) →
        world.Valid byteLimit next.cache := by
  cases task with
  | exit identity =>
    refine ⟨rfl, fun next hnext => ?_⟩
    rw [← ExpansionStep.next.inj (Option.some.inj hnext)]
    exact h
  | emit source range influence =>
    unfold step stepFresh
    dsimp only [forget]
    cases happend : appendSlice expansion.output source range influence byteLimit with
    | none => exact ⟨rfl, fun next hnext => (nomatch hnext)⟩
    | some found =>
      obtain ⟨appended, output⟩ := found
      cases appended with
      | false => exact ⟨rfl, fun next hnext => (nomatch hnext)⟩
      | true =>
        refine ⟨rfl, fun next hnext => ?_⟩
        rw [← ExpansionStep.next.inj (Option.some.inj hnext)]
        exact h
  | enter frame => exact enter_forget h cacheBytes frame

/-! ## Runs -/

variable {other : Expansion} {cacheBytes otherBytes : Nat}

/-- Two expansions that differ in valid caches take the same step. -/
theorem step_same (hsame : forget expansion = forget other)
    (h : world.Valid byteLimit expansion.cache)
    (hother : world.Valid byteLimit other.cache) (cacheBytes otherBytes : Nat)
    (rest : List RenderTask) (task : RenderTask) :
    (world.step byteLimit cacheBytes { expansion with work := rest } task).map forgetStep =
      (world.step byteLimit otherBytes { other with work := rest } task).map forgetStep := by
  have hrest : world.Valid byteLimit { expansion with work := rest }.cache := h
  have hrest' : world.Valid byteLimit { other with work := rest }.cache := hother
  rw [(step_forget hrest cacheBytes task).1, (step_forget hrest' otherBytes task).1]
  exact congrArg (fun expansion => world.stepFresh byteLimit { expansion with work := rest } task)
    hsame

/-- Where the one goes on with a task, the other has an outcome that differs in the cache only. -/
theorem exists_step_same (otherBytes : Nat) (hsame : forget expansion = forget other)
    (h : world.Valid byteLimit expansion.cache) (hother : world.Valid byteLimit other.cache)
    {task : RenderTask} {rest : List RenderTask} (hwork : expansion.work = task :: rest)
    {outcome : ExpansionStep}
    (hstep : world.step byteLimit cacheBytes { expansion with work := rest } task = some outcome) :
    other.work = task :: rest ∧ ∃ found,
      world.step byteLimit otherBytes { other with work := rest } task = some found ∧
        forgetStep found = forgetStep outcome := by
  have hsteps := step_same hsame h hother cacheBytes otherBytes rest task
  rw [hstep] at hsteps
  exact ⟨(congrArg Expansion.work hsame).symm.trans hwork, Option.map_eq_some_iff.mp hsteps.symm⟩

/-- Two expansions that differ in valid caches return the same. -/
theorem run_forget (hsame : forget expansion = forget other)
    (h : world.Valid byteLimit expansion.cache) (hother : world.Valid byteLimit other.cache) :
    world.run byteLimit cacheBytes expansion = world.run byteLimit otherBytes other := by
  induction expansion using run.induct world byteLimit cacheBytes generalizing other with
  | case1 expansion hwork =>
    have hwork' : other.work = [] := (congrArg Expansion.work hsame).symm.trans hwork
    rw [run_of_nil hwork, run_of_nil hwork']
    exact congrArg (fun expansion => some expansion.output) hsame
  | case2 expansion task rest hwork hstep =>
    have hwork' : other.work = task :: rest := (congrArg Expansion.work hsame).symm.trans hwork
    have hsteps := step_same hsame h hother cacheBytes otherBytes rest task
    rw [run_of_cons hwork, run_of_cons hwork', hstep]
    rw [hstep] at hsteps
    rw [Option.map_eq_none_iff.mp hsteps.symm, Option.bind_none, Option.bind_none]
  | case3 expansion task rest hwork output hstep =>
    obtain ⟨hwork', outcome, houtcome, heq⟩ :=
      exists_step_same otherBytes hsame h hother hwork hstep
    rw [run_of_cons hwork, run_of_cons hwork', hstep, houtcome]
    cases outcome with
    | stop found => exact congrArg some (ExpansionStep.stop.inj heq).symm
    | next found => cases heq
  | case4 expansion task rest hwork next hstep ih =>
    obtain ⟨hwork', outcome, houtcome, heq⟩ :=
      exists_step_same otherBytes hsame h hother hwork hstep
    rw [run_of_cons hwork, run_of_cons hwork', hstep, houtcome]
    cases outcome with
    | stop found => cases heq
    | next found =>
      have hrest : world.Valid byteLimit { expansion with work := rest }.cache := h
      have hrest' : world.Valid byteLimit { other with work := rest }.cache := hother
      exact ih (ExpansionStep.next.inj heq).symm ((step_forget hrest cacheBytes task).2 next hstep)
        ((step_forget hrest' otherBytes task).2 found houtcome)

variable (world)

/-- **The expansion memo is transparent.** An expansion returns the same for every size of its
caches. -/
theorem renderExpandedImpl_frameCacheBytes (root : Nat) (bindings raw : Bindings)
    (present : Finset Str)
    (schema : SchemaId) (state : ScopeState) (byteLimit frameCacheBytes otherBytes : Nat) :
    world.renderExpandedImpl root bindings raw present schema state byteLimit frameCacheBytes =
      world.renderExpandedImpl root bindings raw present schema state byteLimit otherBytes := by
  unfold renderExpandedImpl
  dsimp only
  split
  · rfl
  · exact run_forget rfl valid_empty valid_empty

end RenderWorld

end ParadoxCode.Hir
