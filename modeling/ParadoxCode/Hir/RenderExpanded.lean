import Mathlib.Data.Char
import Mathlib.Data.Finset.Sort
import Mathlib.Data.List.MinMax
import ParadoxCode.Hir.Collector
import ParadoxCode.Hir.TemplateText
import ParadoxCode.Lib.StableSort
import ParadoxCode.Parser.File

/-!
# Expanding templates

`render_expanded` of `template_text.rs`: a stack of frames to enter and of slices to emit. A
template is shared and known by its address. What a panic leaves is `none`. The checkpoint of a
query never stops it here, and the debug formats of the standard library are parameters.
-/

namespace ParadoxCode.Hir

open ParadoxCode.Parser Rules

/-! ## What an expansion reads -/

/-- The fields that a key has selected. -/
structure FieldFact where
  schema : SchemaId
  fields : List FieldId
  deriving DecidableEq

/-- The scope at a block. -/
structure SchemaFact where
  range : TextRange
  schema : SchemaId
  state : ScopeState
  deriving DecidableEq

/-- What lowering finds in a parsed fragment. -/
structure FragmentFacts where
  fieldFactAt : TextRange → Option FieldFact
  schemaFacts : List SchemaFact

/-- The workspace during one query. -/
structure RenderWorld where
  rules : UseRules
  /-- The templates by their addresses. -/
  heap : Nat → Template
  /-- `facts.template`. -/
  template : TypeId → Str → Option Nat
  /-- `lower_schema_fragment`. -/
  lower : ParsedFile → SchemaId → ScopeState → List TextRange → FragmentFacts
  debugBindings : Bindings → Str
  debugPresent : Finset Str → Str
  debugState : ScopeState → Str
  /-- `size_of::<ScopeValue>()`. -/
  scopeValueSize : Nat

/-- A lowered fragment. -/
structure HirFile where
  syn : ParsedFile
  properties : List HirProperty
  facts : FragmentFacts

/-! ## Frames -/

structure RenderKey where
  template : Nat
  schema : SchemaId
  bindings : Bindings
  raw : Bindings
  present : Finset Str
  deriving DecidableEq

structure FrameKey where
  schema : SchemaId
  state : ScopeState
  holes : List TextRange
  text : Str
  deriving DecidableEq

/-- `RenderTask::Enter`. -/
structure Frame where
  template : Nat
  bindings : Bindings
  raw : Bindings
  present : Finset Str
  rootNames : Std.ExtTreeMap Str (Finset Str)
  bindingSources : Std.ExtTreeMap Str BindingSource
  influence : Finset Str
  schema : SchemaId
  state : ScopeState

inductive RenderTask where
  | exit (identity : Str)
  | enter (frame : Frame)
  | emit (source : RenderedText) (range : TextRange) (influence : Finset Str)

/-- The caches of one query. -/
structure FrameCache where
  renders : List (RenderKey × RenderedText) := []
  hirs : List (FrameKey × HirFile) := []
  bytes : Nat := 0

/-- Saturating arithmetic on `usize`. -/
def saturate (n : Nat) : Nat := min n (2 ^ 64 - 1)

namespace RenderWorld

variable (world : RenderWorld)

/-! ### The text of a frame -/

/-- The text of a frame, rendered anew. -/
def render (byteLimit : Nat) (key : RenderKey) : Option RenderedText :=
  let template := world.heap key.template
  let uses : UsePositions :=
    if template.program.parameters = ∅ ∧ '$' ∉ template.source then {}
    else world.rules.bindingUsePositions key.bindings template.program key.schema
  renderWithViews template key.bindings key.present key.raw uses.scalar uses.raw
    uses.script byteLimit

/-- The bytes of a map: its keys and its values. -/
def bindingBytes (bindings : Bindings) : Nat :=
  (bindings.toList.map fun entry => byteLen entry.1 + byteLen entry.2).sum

/-- What a cached text is charged for. -/
def renderCost (key : RenderKey) (rendered : RenderedText) : Nat :=
  saturate (byteLen (world.heap key.template).source * 128 + 1024 + byteLen rendered.text * 32 +
    (key.bindings.size + key.raw.size + key.present.card) * 128 + rendered.pieces.length * 512 +
    (bindingBytes key.bindings + bindingBytes key.raw) * 8 + (key.present.sum byteLen) * 8)

/-- The text of a frame, from the cache where it has it. -/
def lookupRender (byteLimit cacheBytes : Nat) (cache : FrameCache) (key : RenderKey) :
    Option (RenderedText × FrameCache) :=
  match cache.renders.lookup key with
  | some rendered => some (rendered, cache)
  | none => do
    let rendered ← world.render byteLimit key
    let cost := world.renderCost key rendered
    if rendered.coverage.limits = ∅ ∧ cost ≤ cacheBytes - cache.bytes then
      some (rendered, { cache with
        bytes := cache.bytes + cost
        renders := (key, rendered) :: cache.renders })
    else some (rendered, cache)

/-! ### The sources of its pieces -/

/-- `parser::decode_quoted_script` of the spelling of an argument, with an offset into it. -/
def mapOffsets (raw : Option Str) (length shift : Nat) : Option (List Nat) :=
  (raw.bind decodeQuotedScript).map fun (_, map) =>
    (List.range (length + 1)).filterMap fun i => map.sourceOffset (i + shift)

/-- The offsets into an argument of the boundaries of a text that was inserted for it. -/
def generatedOffsets (generated value : Str) (raw : Option Str) : Option (List Nat) :=
  let length := asU32 (byteLen generated)
  if generated = value then some (List.range (length + 1))
  else if raw = some generated then mapOffsets raw length 0
  else if raw.bind stripQuotes = some generated then mapOffsets raw length 1
  else none

/-- The root argument that an inserted piece comes from. -/
def pieceSource (frame : Frame) (text : Str) (piece : SourcePiece) :
    Option (Option BindingSource) :=
  match piece.bindingName with
  | none => some piece.bindingSource
  | some name =>
    match frame.bindingSources[name]?, frame.bindings[name]? with
    | some binding, some value => do
      let generated ← getText text piece.range.start piece.range.stop
      let raw := frame.raw[name]?
      let mapped :=
        ((generatedOffsets generated value raw).filter fun offsets =>
          offsets.length = byteLen generated + 1).bind fun offsets =>
            offsets.mapM fun i => binding.offsets[i]?
      match mapped with
      | none => some piece.bindingSource
      | some offsets => some (some {
          parameter := binding.parameter
          quoteLayers := binding.quoteLayers
          borrowedCarrier := raw = some generated
          script := binding.script || piece.script
          offsets := offsets })
    | _, _ => some piece.bindingSource

/-- A piece in terms of the root bindings. -/
def annotatePiece (frame : Frame) (text : Str) (piece : SourcePiece) : Option SourcePiece :=
  (pieceSource frame text piece).map fun source =>
    { piece with
      bindingSource := source
      script := piece.script || source.any BindingSource.script
      parameters := (piece.parameters.biUnion fun name => (frame.rootNames[name]?).getD {name}) ∪
        frame.influence }

/-- The text of a frame with the sources of its pieces. -/
def annotate (frame : Frame) (rendered : RenderedText) : Option RenderedText :=
  (rendered.pieces.mapM (annotatePiece frame rendered.text)).map fun pieces =>
    { rendered with pieces := pieces }

/-! ### The properties of a frame -/

/-- `parse_limit`. -/
def parseLimit : ScriptParseLimit → AnalysisLimit
  | .bytes => .textBytes
  | .nodes => .parseNodes
  | .depth => .consumptionDepth

/-- `parse_script_prefix_bounded` with the budget of a frame. -/
def parsePrefix (byteLimit : Nat) (text : Str) : Option ScriptParseProgress :=
  match parseScriptPrefixBounded text ⟨byteLimit, 50000, 128⟩
    (fun _ => .ok () : Checkpoint Empty) with
  | some (.ok progress, _) => some progress
  | some (.error error, _) => error.elim
  | none => none

/-- What the frontier of a partial parse adds to the text. -/
def withFrontier (rendered : RenderedText) : Option (ScriptParseLimit × Nat) → RenderedText
  | none => rendered
  | some (limit, frontier) =>
    { rendered with
      coverage := rendered.coverage.limit (parseLimit limit)
      frontiers := rendered.frontiers ++ [frontier]
      trialHoles := rendered.trialHoles ++
        (TextRange.new frontier (asU32 (byteLen rendered.text))).toList }

/-- `lower_ir_schema_with_holes`. -/
def lowerFile (parsed : ParsedFile) (schema : SchemaId) (state : ScopeState)
    (holes : List TextRange) : Option HirFile :=
  (collect parsed).map fun properties => ⟨parsed, properties, world.lower parsed schema state holes⟩

/-- What a cached fragment is charged for. -/
def hirCost (key : FrameKey) (hir : HirFile) : Nat :=
  saturate (byteLen key.text * 128 + 1024 +
    (key.state.current.length + key.state.from'.length + key.state.previous.length) *
      world.scopeValueSize + hir.properties.length * 2048)

/-- The properties of a text, from the cache where it has them, and the text with the frontier of
its parse. Where nothing was parsed there are none. -/
def lookupHir (byteLimit cacheBytes : Nat) (cache : FrameCache) (schema : SchemaId)
    (state : ScopeState)
    (rendered : RenderedText) : Option (Option HirFile × RenderedText × FrameCache) :=
  let key : FrameKey := ⟨schema, state, rendered.trialHoles, rendered.text⟩
  match cache.hirs.lookup key with
  | some hir => some (some hir, rendered, cache)
  | none => do
    let progress ← parsePrefix byteLimit rendered.text
    let rendered := withFrontier rendered progress.frontier
    match progress.parsed with
    | none => some (none, rendered, cache)
    | some parsed => do
      let hir ← world.lowerFile parsed schema state rendered.trialHoles
      let cost := world.hirCost key hir
      if progress.frontier = none ∧ cost ≤ cacheBytes - cache.bytes then
        some (some hir, rendered, { cache with
          bytes := cache.bytes + cost
          hirs := (key, hir) :: cache.hirs })
      else some (some hir, rendered, cache)

/-! ### Forwarded arguments -/

/-- What a call is entered with. -/
structure Arguments where
  bindings : Bindings := ∅
  raw : Bindings := ∅
  present : Finset Str := ∅
  roots : Std.ExtTreeMap Str (Finset Str) := ∅
  sources : Std.ExtTreeMap Str BindingSource := ∅

/-- The loop variables of a projection: `quote_layers` and `root_script`. -/
structure PointState where
  quoteLayers : Option Nat := none
  rootScript : Bool := false

/-- The root offset of a boundary: of the first piece that has one. -/
def pointAt (absolute : Nat) : List SourcePiece → PointState → PointState × Option (Str × Nat)
  | [], state => (state, none)
  | piece :: pieces, state =>
    match piece.bindingSource with
    | some map =>
      if piece.range.start ≤ absolute ∧ absolute ≤ piece.range.stop then
        let state : PointState := ⟨some map.quoteLayers,
          state.rootScript || map.script || piece.script⟩
        match map.offsets[absolute - piece.range.start]? with
        | some offset => (state, some (map.parameter, offset))
        | none => pointAt absolute pieces state
      else pointAt absolute pieces state
    | none => pointAt absolute pieces state

/-- The boundaries of an argument in one root argument. -/
structure Projection where
  offsets : List Nat := []
  root : Option Str := none
  point : PointState := {}

/-- The loop over the boundaries of an argument. -/
def project (pieces : List SourcePiece) (absolute : Nat → Nat) : List Nat → Projection → Projection
  | [], projection => projection
  | i :: rest, projection =>
    match pointAt (absolute i) pieces projection.point with
    | (point, none) => { projection with offsets := [], point := point }
    | (point, some (parameter, offset)) =>
      if projection.root.any (· ≠ parameter) then { projection with offsets := [], point := point }
      else project pieces absolute rest ⟨projection.offsets ++ [offset], some parameter, point⟩

/-- Whether the spelling of a value is borrowed from the carrier of an argument. -/
def borrows (rendered : RenderedText) (range : TextRange) : Bool :=
  ((rendered.pieces.find? fun piece =>
    decide (piece.range.start ≤ range.start) && decide (range.stop ≤ piece.range.stop)).bind
      SourcePiece.bindingSource).any BindingSource.borrowedCarrier

/-- The source of an argument, where its bytes come from one root argument. -/
def argumentSource (rendered : RenderedText) (syn : ParsedFile) (value : HirScalar) :
    Option BindingSource :=
  let decoded := ((getText rendered.text value.range.start value.range.stop).filter fun _ =>
    value.quoted).bind decodeQuotedScript
  let logical := bindingValue syn value
  let absolute (i : Nat) : Nat :=
    value.range.start + (decoded.bind fun decoded => decoded.2.decodedOffset i).getD i
  let projection :=
    project rendered.pieces absolute (List.range (asU32 (byteLen logical) + 1)) {}
  if projection.offsets.length = byteLen logical + 1 then
    projection.root.map fun parameter => {
      parameter := parameter
      quoteLayers := projection.point.quoteLayers.getD 0 +
        if value.quoted && !borrows rendered value.range then 1 else 0
      borrowedCarrier := false
      script := projection.point.rootScript
      offsets := projection.offsets }
  else none

/-- One round of the loop over the arguments of a call. -/
def forwardArgument (rendered : RenderedText) (syn : ParsedFile) (arguments : Arguments)
    (argument : HirProperty) : Arguments :=
  let name := toAsciiLowercase argument.key
  let arguments := { arguments with present := insert name arguments.present }
  match argument.scalar with
  | none => arguments
  | some value =>
    let arguments :=
      if rendered.hasHole value.range then arguments
      else { arguments with
        bindings := arguments.bindings.insert name (bindingValue syn value)
        raw := match getText rendered.text value.range.start value.range.stop with
          | some raw => arguments.raw.insert name raw
          | none => arguments.raw }
    { arguments with
      sources := match argumentSource rendered syn value with
        | some source => arguments.sources.insert name source
        | none => arguments.sources
      roots := arguments.roots.insert name (rendered.dependencies value.range) }

/-- The properties that are the arguments of a call. -/
def argumentsOf (properties : List HirProperty) (property : HirProperty) : List HirProperty :=
  properties.filter fun argument =>
    decide (argument.path.length = property.path.length + 1) &&
      property.path.isPrefixOf argument.path &&
      decide (property.range.start ≤ argument.range.start) &&
      decide (argument.range.stop ≤ property.range.stop)

/-- The arguments of a call as the renderer forwards them. -/
def forwardRendered (rendered : RenderedText) (hir : HirFile)
    (property : HirProperty) : Arguments :=
  (argumentsOf hir.properties property).foldl (forwardArgument rendered hir.syn) {}

/-! ### The calls of a frame -/

/-- The variables of the loop over the properties. -/
structure CallScan where
  rendered : RenderedText
  output : RenderedTemplate
  calls : List (TextRange × Frame) := []
  covered : List TextRange := []

/-- The type that a property calls a template of. -/
def calledType (hir : HirFile) (property : HirProperty) : Option (FieldFact × Str × TypeId) := do
  let field ← hir.facts.fieldFactAt property.keyRange
  let kind ← field.fields.findSome? world.rules.templateKind
  let typeId ← world.rules.typeByName kind
  some (field, kind, typeId)

/-- Whether a property is left alone: its structure is unresolved, or it belongs to a call. -/
def CallScan.skips (scan : CallScan) (property : HirProperty) : Bool :=
  scan.rendered.hasUnresolvedStructure property.keyRange ||
    scan.rendered.frontiers.any (fun frontier => decide (frontier < property.range.stop)) ||
    scan.covered.any fun range =>
      decide (range.start ≤ property.range.start) && decide (property.range.stop ≤ range.stop)

/-- Whether a key is inserted from a root argument. -/
def keyIsBound (rendered : RenderedText) (keyRange : TextRange) : Bool :=
  rendered.pieces.any fun piece => piece.bindingSource.isSome && overlaps piece.range keyRange

/-- The scope at a property. -/
def scopeAt (hir : HirFile) (schema : SchemaId) (keyRange : TextRange)
    (state : ScopeState) : ScopeState :=
  (((hir.facts.schemaFacts.filter fun parent =>
    decide (parent.schema = schema) && decide (parent.range.start ≤ keyRange.start) &&
      decide (keyRange.stop ≤ parent.range.stop)).argmin fun parent =>
        parent.range.stop - parent.range.start).map SchemaFact.state).getD state

/-- One round of the loop over the properties of a frame. `view` is its text before the loop. -/
def scanProperty (frame : Frame) (hir : HirFile) (view : RenderedText) (scan : CallScan)
    (property : HirProperty) : CallScan :=
  if scan.skips property then scan
  else
    match world.calledType hir property with
    | none => scan
    | some (field, kind, typeId) =>
      let scan :=
        if keyIsBound scan.rendered property.keyRange then
          { scan with output := { scan.output with calls := scan.output.calls ++ [{
            kind := kind
            name := property.key
            source := bindingRange scan.rendered property.keyRange
            site := ⟨view, frame.schema, frame.state, property.keyRange⟩ }] } }
        else scan
      match world.template typeId property.key with
      | none =>
        { scan with
          rendered := { scan.rendered with
            coverage := scan.rendered.coverage.limit .unavailableTemplate
            unresolvedBindings := scan.rendered.unresolvedBindings ++ property.valueRange.toList }
          output := { scan.output with
            coverage := scan.output.coverage.limit .unavailableTemplate }
          covered := scan.covered ++ [property.range] }
      | some callee =>
        match world.rules.templateBody typeId with
        | none => scan
        | some body =>
          let arguments := forwardRendered scan.rendered hir property
          { scan with
            calls := scan.calls ++ [(property.range, {
              template := callee
              bindings := arguments.bindings
              raw := arguments.raw
              present := arguments.present
              rootNames := arguments.roots
              bindingSources := arguments.sources
              influence := frame.influence ∪ scan.rendered.dependencies property.keyRange
              schema := body
              state := scopeAt hir field.schema property.keyRange frame.state })]
            covered := scan.covered ++ [property.range] }

/-- The tasks of a frame: its calls in source order and the slices between them. -/
def tasksFrom (rendered : RenderedText) (influence : Finset Str) :
    Nat → List (TextRange × Frame) → Option (List RenderTask)
  | from', [] =>
    (TextRange.new from' (asU32 (byteLen rendered.text))).map fun range =>
      [.emit rendered range influence]
  | from', (range, call) :: calls => do
    let before ← TextRange.new from' range.start
    let tasks ← tasksFrom rendered influence range.stop calls
    some (.emit rendered before influence :: .enter call :: tasks)

/-! ## The loop -/

/-- The variables of the loop. -/
structure Expansion where
  output : RenderedTemplate
  work : List RenderTask
  frames : Nat := 0
  processedBytes : Nat := 0
  visiting : Finset Str := ∅
  cache : FrameCache := {}

/-- The outcome of a round. -/
inductive ExpansionStep where
  | stop (output : RenderedTemplate)
  | next (expansion : Expansion)

/-- What a frame is recognised by while it is open. -/
def identity (frame : Frame) : Str :=
  let template := world.heap frame.template
  template.kind ++ ':' :: template.name ++ ':' :: world.debugBindings frame.bindings ++
    ':' :: world.debugPresent frame.present ++ ':' :: world.debugState frame.state

/-- The end of a round that enters a frame: its properties are scanned and its tasks are pushed. -/
def pushTasks (frame : Frame) (hir : HirFile) (rendered : RenderedText) (expansion : Expansion) :
    Option ExpansionStep :=
  let scan := hir.properties.foldl (world.scanProperty frame hir rendered)
    ⟨rendered, expansion.output, [], []⟩
  let calls := StableSort.sortByKey (fun call : TextRange × Frame => call.1.start) scan.calls
  (tasksFrom scan.rendered frame.influence 0 calls).map fun tasks =>
    .next { expansion with output := scan.output, work := tasks ++ expansion.work }

/-- A round that enters a frame. -/
def enter (byteLimit cacheBytes : Nat) (frame : Frame) (expansion : Expansion) :
    Option ExpansionStep :=
  let expansion := { expansion with frames := expansion.frames + 1 }
  if expansion.frames > 100000 then some (.stop (expansion.output.cut .nodes))
  else
    let identity := world.identity frame
    if identity ∈ expansion.visiting then some (.stop (expansion.output.cut .recursiveState))
    else do
      let key : RenderKey := ⟨frame.template, frame.schema, frame.bindings, frame.raw,
        frame.present⟩
      let (rendered, cache) ← world.lookupRender byteLimit cacheBytes expansion.cache key
      let rendered ← annotate frame rendered
      let processedBytes := saturate (expansion.processedBytes + byteLen rendered.text)
      if processedBytes > saturate (byteLimit * 16) then
        some (.stop (expansion.output.cut .textBytes))
      else do
        let output := { expansion.output with
          coverage := expansion.output.coverage.merge rendered.coverage }
        let (hir, rendered, cache) ←
          world.lookupHir byteLimit cacheBytes cache frame.schema frame.state rendered
        match hir with
        | none =>
          some (.stop { output with
            coverage := output.coverage.merge rendered.coverage
            frontiers := output.frontiers ++ [asU32 (byteLen output.text)] })
        | some hir =>
          world.pushTasks frame hir rendered
            { output := output
              work := .exit identity :: expansion.work
              frames := expansion.frames
              processedBytes := processedBytes
              visiting := insert identity expansion.visiting
              cache := cache }

/-- One round, with a task from the top of the stack. -/
def step (byteLimit cacheBytes : Nat) (expansion : Expansion) (task : RenderTask) :
    Option ExpansionStep :=
  match task with
  | .exit identity => some (.next { expansion with visiting := expansion.visiting.erase identity })
  | .emit source range influence =>
    (appendSlice expansion.output source range influence byteLimit).map fun (appended, output) =>
      if appended then .next { expansion with output := output } else .stop output
  | .enter frame => world.enter byteLimit cacheBytes frame expansion

variable {world} {byteLimit cacheBytes : Nat} {expansion next : Expansion}

theorem pushTasks_next {frame : Frame} {hir : HirFile} {rendered : RenderedText}
    (h : world.pushTasks frame hir rendered expansion = some (.next next)) :
    next.frames = expansion.frames := by
  unfold pushTasks at h
  obtain ⟨tasks, -, h⟩ := Option.map_eq_some_iff.mp h
  rw [← ExpansionStep.next.inj h]

theorem enter_next {frame : Frame}
    (h : world.enter byteLimit cacheBytes frame expansion = some (.next next)) :
    next.frames = expansion.frames + 1 ∧ next.frames ≤ 100000 := by
  unfold enter at h
  dsimp only at h
  split at h
  · cases h
  rename_i hframes
  split at h
  · cases h
  simp only [Option.bind_eq_bind, Option.bind_eq_some_iff] at h
  obtain ⟨_, -, _, -, h⟩ := h
  split at h
  · cases h
  rw [Option.bind_eq_some_iff] at h
  obtain ⟨_, -, h⟩ := h
  split at h
  · cases h
  · have hnext : next.frames = expansion.frames + 1 := pushTasks_next h
    omega

/-- A round takes a task, or it enters one of at most a hundred thousand frames. -/
theorem step_next {task : RenderTask} {rest : List RenderTask} (hwork : expansion.work = rest)
    (h : world.step byteLimit cacheBytes expansion task = some (.next next)) :
    next.frames = expansion.frames ∧ next.work = rest ∨
      next.frames = expansion.frames + 1 ∧ next.frames ≤ 100000 := by
  cases task with
  | exit identity =>
    rw [← ExpansionStep.next.inj (Option.some.inj h)]
    exact .inl ⟨rfl, hwork⟩
  | emit source range influence =>
    unfold step at h
    obtain ⟨⟨appended, output⟩, -, h⟩ := Option.map_eq_some_iff.mp h
    dsimp only at h
    split at h
    · rw [← ExpansionStep.next.inj h]
      exact .inl ⟨rfl, hwork⟩
    · cases h
  | enter frame => exact .inr (enter_next h)

variable (world)

/-- The loop of `render_expanded_impl`. -/
def run (byteLimit cacheBytes : Nat) (expansion : Expansion) : Option RenderedTemplate :=
  match _hwork : expansion.work with
  | [] => some expansion.output
  | task :: rest =>
    match _hstep : world.step byteLimit cacheBytes { expansion with work := rest } task with
    | none => none
    | some (.stop output) => some output
    | some (.next next) => run byteLimit cacheBytes next
termination_by (100001 - expansion.frames, expansion.work.length)
decreasing_by
  rcases step_next rfl _hstep with ⟨hframes, hrest⟩ | ⟨hframes, hbound⟩
  · rw [show next.frames = expansion.frames from hframes, hrest, _hwork]
    exact Prod.Lex.right _ (Nat.lt_succ_self _)
  · apply Prod.Lex.left
    have : next.frames = expansion.frames + 1 := hframes
    omega

variable {world}

theorem run_of_nil (h : expansion.work = []) :
    world.run byteLimit cacheBytes expansion = some expansion.output := by
  unfold run
  split
  · rfl
  · rename_i hcons
    rw [h] at hcons
    cases hcons

theorem run_of_cons {task : RenderTask} {rest : List RenderTask}
    (h : expansion.work = task :: rest) :
    world.run byteLimit cacheBytes expansion =
      (world.step byteLimit cacheBytes { expansion with work := rest } task).bind fun
        | .stop output => some output
        | .next next => world.run byteLimit cacheBytes next := by
  rw [run]
  split
  · rename_i hnil
    rw [h] at hnil
    cases hnil
  · rename_i task' rest' hcons
    obtain ⟨rfl, rfl⟩ := List.cons.inj (h.symm.trans hcons)
    split
    · rename_i hstep
      rw [hstep]
      rfl
    · rename_i hstep
      rw [hstep]
      rfl
    · rename_i hstep
      rw [hstep]
      rfl

variable (world)

/-- The frame of the root. -/
def rootFrame (root : Nat) (bindings raw : Bindings) (present : Finset Str) (schema : SchemaId)
    (state : ScopeState) : Frame where
  template := root
  bindings := bindings
  raw := raw
  present := present
  rootNames := (bindings.keys ++ present.sort (· ≤ ·)).foldl
    (fun (names : Std.ExtTreeMap Str (Finset Str)) name => names.insert name {name}) ∅
  bindingSources := bindings.map fun name value =>
    ⟨name, 0, false, false, List.range (asU32 (byteLen value) + 1)⟩
  influence := ∅
  schema := schema
  state := state

/-- `render_expanded_impl`. -/
def renderExpandedImpl (root : Nat) (bindings raw : Bindings) (present : Finset Str)
    (schema : SchemaId)
    (state : ScopeState) (byteLimit frameCacheBytes : Nat) : Option RenderedTemplate :=
  let tooLong (value : Str) : Bool := decide (byteLen value > byteLimit)
  if bindings.values.any tooLong || raw.values.any tooLong then
    some { coverage := ({} : AnalysisCoverage).limit .textBytes, frontiers := [0] }
  else
    world.run byteLimit frameCacheBytes
      { output := {}
        work := [.enter (rootFrame root bindings raw present schema state)] }

/-- `render_expanded`. -/
def renderExpanded (root : Nat) (bindings raw : Bindings) (present : Finset Str) (schema : SchemaId)
    (state : ScopeState) (byteLimit : Nat) : Option RenderedTemplate :=
  world.renderExpandedImpl root bindings raw present schema state byteLimit (16 * 1024 * 1024)

end RenderWorld

end ParadoxCode.Hir
