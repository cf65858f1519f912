import ParadoxCode.Hir.FrameReuse

/-!
# Where the bytes of an expansion come from

A piece of an expanded template may say which root argument its bytes come from, and where in its
value they stand. These places never leave the value, however far it has been forwarded.
-/

namespace ParadoxCode.Hir

/-- The offsets stand in the value of a root argument. -/
def BindingSource.Within (bindings : Bindings) (source : BindingSource) : Prop :=
  ∃ value, bindings[source.parameter]? = some value ∧ ∀ offset ∈ source.offsets,
    offset ≤ byteLen value

/-- Whatever the pieces say of root arguments is true of them. -/
def Sourced (bindings : Bindings) (pieces : List SourcePiece) : Prop :=
  ∀ piece ∈ pieces, ∀ source ∈ piece.bindingSource, source.Within bindings

/-- Nothing is said of root arguments. -/
def Unsourced (pieces : List SourcePiece) : Prop := ∀ piece ∈ pieces, piece.bindingSource = none

variable {bindings : Bindings}

theorem Sourced.append {pieces more : List SourcePiece} (h : Sourced bindings pieces)
    (hmore : Sourced bindings more) : Sourced bindings (pieces ++ more) :=
  fun piece hpiece => (List.mem_append.mp hpiece).elim (h piece) (hmore piece)

theorem BindingSource.Within.of_subset {source other : BindingSource} (h : source.Within bindings)
    (hparameter : other.parameter = source.parameter)
    (hoffsets : ∀ offset ∈ other.offsets, offset ∈ source.offsets) : other.Within bindings := by
  obtain ⟨value, hvalue, hle⟩ := h
  exact ⟨value, hparameter ▸ hvalue, fun offset hoffset => hle offset (hoffsets offset hoffset)⟩

/-- What a run over a list gives is given at some element. -/
theorem exists_of_mem_mapM {α β : Type} {f : α → Option β} {xs : List α} {ys : List β}
    (h : xs.mapM f = some ys) {y : β} (hy : y ∈ ys) : ∃ x ∈ xs, f x = some y := by
  induction xs generalizing ys with
  | nil =>
    obtain rfl : [] = ys := Option.some.inj h
    cases hy
  | cons x xs ih =>
    rw [List.mapM_cons, Option.bind_eq_bind, Option.bind_eq_some_iff] at h
    obtain ⟨first, hfirst, h⟩ := h
    rw [Option.bind_eq_bind, Option.bind_eq_some_iff] at h
    obtain ⟨rest, hrest, h⟩ := h
    obtain rfl : first :: rest = ys := Option.some.inj h
    rcases List.mem_cons.mp hy with rfl | hy
    · exact ⟨x, List.mem_cons_self, hfirst⟩
    · obtain ⟨z, hz, hzy⟩ := ih hrest hy
      exact ⟨z, List.mem_cons_of_mem x hz, hzy⟩

/-! ## Rendering a frame -/

namespace RenderInputs

variable {inputs : RenderInputs} {state : RenderState}

theorem unsourced_extendPieces {insertion : Insertion} {range origin : TextRange}
    {dependencies : Finset Str} {pieces : List SourcePiece} (h : Unsourced state.output.pieces)
    (hpieces : inputs.extendPieces state insertion range origin dependencies = some pieces) :
    Unsourced pieces := by
  have hadded : Unsourced (state.output.pieces ++
    [inputs.piece state insertion range origin dependencies]) := by
    intro piece hpiece
    rcases List.mem_append.mp hpiece with hpiece | hpiece
    · exact h piece hpiece
    · rw [List.mem_singleton.mp hpiece]
      rfl
  unfold extendPieces at hpieces
  dsimp only at hpieces
  split at hpieces
  · rename_i previous hprevious
    split_ifs at hpieces
    · simp only [Option.bind_eq_bind, Option.bind_eq_some_iff] at hpieces
      obtain ⟨_, -, _, -, hpieces⟩ := hpieces
      rw [← Option.some.inj hpieces]
      intro piece hpiece
      rcases List.mem_append.mp hpiece with hpiece | hpiece
      · exact h piece (List.dropLast_subset _ hpiece)
      · rw [List.mem_singleton.mp hpiece]
        exact h previous (List.mem_of_getLast? hprevious)
    · rwa [← Option.some.inj hpieces]
  · rwa [← Option.some.inj hpieces]

/-- The state of a round, whether it goes on or not. -/
def outcome : RenderStep → RenderState
  | .stop state => state
  | .next _ state => state

theorem unsourced_insert {remaining : Str} {insertion : Insertion} {next : RenderStep}
    (h : Unsourced state.output.pieces)
    (hnext : inputs.insert state remaining insertion = some next) :
    Unsourced (outcome next).output.pieces := by
  unfold insert at hnext
  dsimp only at hnext
  split_ifs at hnext
  · rw [← Option.some.inj hnext]
    exact h
  · rw [← Option.some.inj hnext]
    exact h
  · simp only [Option.bind_eq_bind, Option.bind_eq_some_iff] at hnext
    obtain ⟨_, -, pieces, hpieces, hnext⟩ := hnext
    rw [← Option.some.inj hnext]
    exact unsourced_extendPieces h hpieces

theorem unsourced_insertParameter {before after : Str} {next : RenderStep}
    (h : Unsourced state.output.pieces)
    (hnext : inputs.insertParameter state before after = some next) :
    Unsourced (outcome next).output.pieces := by
  unfold insertParameter at hnext
  dsimp only at hnext
  split at hnext
  · refine unsourced_insert ?_ hnext
    split_ifs
    · exact h
    · exact h
  · refine unsourced_insert ?_ hnext
    exact h

theorem unsourced_step {c : Char} {rest : Str} {next : RenderStep}
    (h : Unsourced state.output.pieces)
    (hnext : inputs.step state c rest = some next) : Unsourced (outcome next).output.pieces := by
  unfold step at hnext
  dsimp only at hnext
  split at hnext
  · rw [← Option.some.inj hnext]
    exact h
  split at hnext
  · split at hnext
    · rw [← Option.some.inj hnext]
      exact h
    · rw [← Option.some.inj hnext]
      exact h
  split at hnext
  · rw [← Option.some.inj hnext]
    exact h
  split at hnext
  · split at hnext
    · rw [← Option.some.inj hnext]
      exact h
    · refine unsourced_insertParameter ?_ hnext
      exact h
  · refine unsourced_insert ?_ hnext
    unfold lex
    split_ifs <;> exact h

theorem unsourced_loop {remaining : Str} {result : RenderState} (h : Unsourced state.output.pieces)
    (hloop : inputs.loop remaining state = some result) : Unsourced result.output.pieces := by
  induction remaining, state using loop.induct inputs with
  | case1 state =>
    rw [loop] at hloop
    rwa [← Option.some.inj hloop]
  | case2 state c rest hstep =>
    rw [loop] at hloop
    split at hloop
    · cases hloop
    · rename_i hstep'
      rw [hstep] at hstep'
      cases hstep'
    · rename_i hstep'
      rw [hstep] at hstep'
      cases hstep'
  | case3 state c rest stopped hstep =>
    rw [loop] at hloop
    split at hloop
    · cases hloop
    · rename_i hstep'
      rw [← Option.some.inj hloop]
      exact unsourced_step h hstep'
    · rename_i hstep'
      rw [hstep] at hstep'
      cases hstep'
  | case4 state c rest after next hstep ih =>
    rw [loop] at hloop
    split at hloop
    · cases hloop
    · rename_i hstep'
      rw [hstep] at hstep'
      cases hstep'
    · rename_i hstep'
      obtain ⟨rfl, rfl⟩ := RenderStep.next.inj (Option.some.inj (hstep.symm.trans hstep'))
      exact ih (unsourced_step h hstep) hloop

end RenderInputs

theorem unsourced_renderWithViews {template : Template} {bindings : Bindings} {present : Finset Str}
    {raw : Bindings}
    {scalarUses rawScalarUses scriptUses : Finset Nat} {byteLimit : Nat} {rendered : RenderedText}
    (h : renderWithViews template bindings present raw scalarUses rawScalarUses scriptUses
      byteLimit = some rendered) :
    Unsourced rendered.pieces := by
  have hempty : Unsourced [] := fun _ hpiece => absurd hpiece List.not_mem_nil
  unfold renderWithViews at h
  dsimp only at h
  split at h
  · rw [← Option.some.inj h]
    exact hempty
  · split at h
    · rw [← Option.some.inj h]
      exact hempty
    · rw [Option.bind_eq_bind, Option.bind_eq_some_iff] at h
      obtain ⟨state, hloop, h⟩ := h
      have hstate : Unsourced state.output.pieces := RenderInputs.unsourced_loop hempty hloop
      split_ifs at h <;> rw [← Option.some.inj h] <;> exact hstate

/-! ## The sources of a frame -/

/-- The arguments of a frame come from root arguments. -/
def SourcesWithin (bindings : Bindings) (sources : Std.ExtTreeMap Str BindingSource) : Prop :=
  ∀ (name : Str) (source : BindingSource), sources[name]? = some source → source.Within bindings

/-- What a task is about comes from root arguments. -/
def RenderTask.Sourced (bindings : Bindings) : RenderTask → Prop
  | .exit _ => True
  | .enter frame => SourcesWithin bindings frame.bindingSources
  | .emit source _ _ => Hir.Sourced bindings source.pieces

namespace RenderWorld

theorem sourced_annotatePiece {frame : Frame} {text : Str} {piece annotated : SourcePiece}
    (hframe : SourcesWithin bindings frame.bindingSources) (hpiece : piece.bindingSource = none)
    (h : annotatePiece frame text piece = some annotated) :
    ∀ source ∈ annotated.bindingSource, source.Within bindings := by
  obtain ⟨found, hfound, rfl⟩ := Option.map_eq_some_iff.mp h
  dsimp only
  unfold pieceSource at hfound
  split at hfound
  · rw [← Option.some.inj hfound, hpiece]
    rintro _ ⟨⟩
  · rename_i name hname
    split at hfound
    · rename_i binding value hbinding hvalue
      rw [Option.bind_eq_bind, Option.bind_eq_some_iff] at hfound
      obtain ⟨generated, -, hfound⟩ := hfound
      dsimp only at hfound
      split at hfound
      · rw [← Option.some.inj hfound, hpiece]
        rintro _ ⟨⟩
      · rename_i offsets hoffsets
        rw [← Option.some.inj hfound]
        rintro _ ⟨⟩
        refine (hframe name binding hbinding).of_subset rfl fun offset hoffset => ?_
        obtain ⟨positions, -, hpositions⟩ := Option.bind_eq_some_iff.mp hoffsets
        obtain ⟨i, -, hi⟩ := exists_of_mem_mapM hpositions hoffset
        exact List.mem_of_getElem? hi
    · rw [← Option.some.inj hfound, hpiece]
      rintro _ ⟨⟩

variable {rendered : RenderedText}

theorem sourced_annotate {frame : Frame} {annotated : RenderedText}
    (hframe : SourcesWithin bindings frame.bindingSources) (hrendered : Unsourced rendered.pieces)
    (h : annotate frame rendered = some annotated) : Sourced bindings annotated.pieces := by
  obtain ⟨pieces, hpieces, rfl⟩ := Option.map_eq_some_iff.mp h
  intro piece hpiece
  obtain ⟨plain, hplain, hannotated⟩ := exists_of_mem_mapM hpieces hpiece
  exact sourced_annotatePiece hframe (hrendered plain hplain) hannotated

/-! ## Forwarded arguments -/

/-- A boundary that a piece has stands in a root argument. -/
theorem pointAt_within {absolute : Nat} {pieces : List SourcePiece} (h : Sourced bindings pieces)
    {state after : PointState} {parameter : Str} {offset : Nat}
    (hpoint : pointAt absolute pieces state = (after, some (parameter, offset))) :
    ∃ value, bindings[parameter]? = some value ∧ offset ≤ byteLen value := by
  induction pieces generalizing state with
  | nil => cases (Prod.mk.inj hpoint).2
  | cons piece pieces ih =>
    have hrest : Sourced bindings pieces := fun other hother =>
      h other (List.mem_cons_of_mem piece hother)
    unfold pointAt at hpoint
    split at hpoint
    · rename_i map hmap
      split at hpoint
      · dsimp only at hpoint
        split at hpoint
        · rename_i found hfound
          obtain ⟨rfl, rfl⟩ := Prod.mk.inj (Option.some.inj (Prod.mk.inj hpoint).2)
          obtain ⟨value, hvalue, hle⟩ := h piece List.mem_cons_self map hmap
          exact ⟨value, hvalue, hle _ (List.mem_of_getElem? hfound)⟩
        · exact ih hrest hpoint
      · exact ih hrest hpoint
    · exact ih hrest hpoint

/-- The boundaries so far stand in the root argument. -/
def Projection.Within (bindings : Bindings) (projection : Projection) : Prop :=
  (projection.root = none → projection.offsets = []) ∧ ∀ parameter,
    projection.root = some parameter → ∃ value, bindings[parameter]? = some value ∧
    ∀ offset ∈ projection.offsets, offset ≤ byteLen value

theorem project_within {pieces : List SourcePiece} (h : Sourced bindings pieces)
    {absolute : Nat → Nat} {is : List Nat}
    {projection : Projection} (hprojection : projection.Within bindings) :
    (project pieces absolute is projection).Within bindings := by
  -- Without boundaries there is nothing to show but for the value.
  have hcleared (point : PointState) :
      ({ projection with offsets := [], point := point } : Projection).Within bindings := by
    refine ⟨fun _ => rfl, fun parameter hparameter => ?_⟩
    obtain ⟨value, hvalue, -⟩ := hprojection.2 parameter hparameter
    exact ⟨value, hvalue, fun _ hoffset => absurd hoffset List.not_mem_nil⟩
  induction is generalizing projection with
  | nil => exact hprojection
  | cons i is ih =>
    unfold project
    split
    · exact hcleared _
    · rename_i point parameter offset hpoint
      split_ifs with hother
      · exact hcleared _
      · obtain ⟨value, hvalue, hle⟩ := pointAt_within h hpoint
        have hnext : (⟨projection.offsets ++ [offset], some parameter, point⟩ : Projection).Within
          bindings := by
          refine ⟨fun hroot => (nomatch hroot), fun other heq => ?_⟩
          obtain rfl := Option.some.inj heq
          refine ⟨value, hvalue, fun found hfound => ?_⟩
          rcases List.mem_append.mp hfound with hfound | hfound
          · cases hroot : projection.root with
            | none =>
              rw [hprojection.1 hroot] at hfound
              cases hfound
            | some root =>
              have heq : root = parameter := by simpa [hroot] using hother
              obtain ⟨value', hvalue', hle'⟩ := hprojection.2 parameter
                (hroot.trans (congrArg some heq))
              obtain rfl := Option.some.inj (hvalue.symm.trans hvalue')
              exact hle' found hfound
          · rwa [List.mem_singleton.mp hfound]
        refine ih hnext fun point => ⟨fun _ => rfl, fun other heq => ?_⟩
        obtain ⟨value, hvalue, -⟩ := hnext.2 other heq
        exact ⟨value, hvalue, fun _ hoffset => absurd hoffset List.not_mem_nil⟩

theorem argumentSource_within (h : Sourced bindings rendered.pieces)
    {syn : Parser.ParsedFile} {scalar : HirScalar} {source : BindingSource}
    (hsource : argumentSource rendered syn scalar = some source) : source.Within bindings := by
  have hempty : ({} : Projection).Within bindings := ⟨fun _ => rfl, fun _ hroot => (nomatch hroot)⟩
  unfold argumentSource at hsource
  dsimp only at hsource
  split at hsource
  · obtain ⟨parameter, hparameter, rfl⟩ := Option.map_eq_some_iff.mp hsource
    exact (project_within h hempty).2 parameter hparameter
  · cases hsource

theorem forwardArgument_within (h : Sourced bindings rendered.pieces)
    {syn : Parser.ParsedFile} {arguments : Arguments}
    (harguments : SourcesWithin bindings arguments.sources)
    (argument : HirProperty) : SourcesWithin bindings
      (forwardArgument rendered syn arguments argument).sources := by
  unfold forwardArgument
  dsimp only
  cases argument.scalar with
  | none => exact harguments
  | some scalar =>
    dsimp only
    -- both ways to note the argument keep the sources
    have hbase (hole : Prop) [Decidable hole] (left right : Arguments)
      (hleft : left.sources = arguments.sources)
        (hright : right.sources = arguments.sources) : (if hole then left else right).sources =
          arguments.sources := by
      split_ifs
      · exact hleft
      · exact hright
    cases hsource : argumentSource rendered syn scalar with
    | none =>
      dsimp only
      rw [hbase]
      · exact harguments
      · rfl
      · rfl
    | some source =>
      intro name found hfound
      rw [Std.ExtTreeMap.getElem?_insert] at hfound
      split at hfound
      · obtain rfl := Option.some.inj hfound
        exact argumentSource_within h hsource
      · rw [hbase] at hfound
        · exact harguments name found hfound
        · rfl
        · rfl

theorem forwardRendered_within (h : Sourced bindings rendered.pieces) (hir : HirFile)
    (property : HirProperty) : SourcesWithin bindings
      (forwardRendered rendered hir property).sources := by
  unfold forwardRendered
  have hempty : SourcesWithin bindings ({} : Arguments).sources := by
    intro name source hsource
    rw [show ({} : Arguments).sources[name]? = none from Std.ExtTreeMap.getElem?_empty] at hsource
    cases hsource
  generalize ({} : Arguments) = arguments at hempty
  induction argumentsOf hir.properties property generalizing arguments with
  | nil => exact hempty
  | cons argument rest ih => exact ih _ (forwardArgument_within h hempty argument)

/-! ## Expanding -/

theorem sourced_slicePiece {range : TextRange} {extra : Finset Str} {at' : Nat}
    {piece sliced : SourcePiece} (h : ∀ source ∈ piece.bindingSource, source.Within bindings)
    (hslice : slicePiece range extra at' piece = some sliced) : ∀ source ∈ sliced.bindingSource,
      source.Within bindings := by
  obtain ⟨moved, -, rfl⟩ := Option.map_eq_some_iff.mp hslice
  intro source hsource
  obtain ⟨mapping, hmapping, rfl⟩ := Option.map_eq_some_iff.mp hsource
  refine (h mapping hmapping).of_subset rfl fun offset hoffset => ?_
  dsimp only [sliceOffsets] at hoffset
  split_ifs at hoffset
  · exact List.drop_subset _ _ (List.take_subset _ _ hoffset)
  · cases hoffset

theorem sourced_appendSlice {target output : RenderedTemplate} {source : RenderedText}
    {range : TextRange}
    {extra : Finset Str} {limit : Nat} {appended : Bool} (htarget : Sourced bindings target.pieces)
    (hsource : Sourced bindings source.pieces)
    (h : appendSlice target source range extra limit = some (appended, output)) :
    Sourced bindings output.pieces := by
  unfold appendSlice at h
  split at h
  · obtain ⟨-, rfl⟩ := Prod.mk.inj (Option.some.inj h)
    exact htarget
  · dsimp only at h
    split at h
    · obtain ⟨-, rfl⟩ := Prod.mk.inj (Option.some.inj h)
      exact htarget
    · rw [Option.bind_eq_bind, Option.bind_eq_some_iff] at h
      obtain ⟨pieces, hpieces, h⟩ := h
      rw [Option.bind_eq_bind, Option.bind_eq_some_iff] at h
      obtain ⟨unresolved, -, h⟩ := h
      obtain ⟨-, rfl⟩ := Prod.mk.inj (Option.some.inj h)
      refine htarget.append fun piece hpiece => ?_
      obtain ⟨whole, hwhole, hslice⟩ := exists_of_mem_mapM hpieces hpiece
      exact sourced_slicePiece (hsource whole (List.mem_of_mem_filter hwhole)) hslice

/-- So do the output and all tasks of an expansion. -/
structure Expansion.Sourced (bindings : Bindings) (expansion : Expansion) : Prop where
  output : Hir.Sourced bindings expansion.output.pieces
  work : ∀ task ∈ expansion.work, task.Sourced bindings

variable {world : RenderWorld} {byteLimit cacheBytes : Nat}

/-- What the loop over the properties of a frame keeps. -/
structure CallScan.Sourced (bindings : Bindings) (output : RenderedTemplate)
    (scan : CallScan) : Prop where
  rendered : Hir.Sourced bindings scan.rendered.pieces
  output : scan.output.pieces = output.pieces
  calls : ∀ call ∈ scan.calls, SourcesWithin bindings call.2.bindingSources

theorem CallScan.Sourced.scanProperty {frame : Frame} {hir : HirFile} {view : RenderedText}
    {output : RenderedTemplate}
    {scan : CallScan} (h : scan.Sourced bindings output) (property : HirProperty) :
    (world.scanProperty frame hir view scan property).Sourced bindings output := by
  have hforwarded (call : TextRange × Frame)
      (hcall : call.2.bindingSources = (forwardRendered scan.rendered hir property).sources) :
      ∀ other ∈ scan.calls ++ [call], SourcesWithin bindings other.2.bindingSources := by
    intro other hother
    rcases List.mem_append.mp hother with hother | hother
    · exact h.calls other hother
    · rw [List.mem_singleton.mp hother, hcall]
      exact forwardRendered_within h.rendered hir property
  unfold RenderWorld.scanProperty
  by_cases hskips : scan.skips property
  · rw [if_pos hskips]
    exact h
  · rw [if_neg hskips]
    cases world.calledType hir property with
    | none => exact h
    | some called =>
      obtain ⟨field, kind, typeId⟩ := called
      dsimp only
      by_cases hbound : keyIsBound scan.rendered property.keyRange
      · simp only [if_pos hbound]
        split
        · exact ⟨h.rendered, h.output, h.calls⟩
        · split
          · exact ⟨h.rendered, h.output, h.calls⟩
          · exact ⟨h.rendered, h.output, hforwarded _ rfl⟩
      · simp only [if_neg hbound]
        split
        · exact ⟨h.rendered, h.output, h.calls⟩
        · split
          · exact h
          · exact ⟨h.rendered, h.output, hforwarded _ rfl⟩

theorem sourced_tasksFrom {influence : Finset Str} {start : Nat}
    {calls : List (TextRange × Frame)} {tasks : List RenderTask}
    (hrendered : Hir.Sourced bindings rendered.pieces)
    (hcalls : ∀ call ∈ calls, SourcesWithin bindings call.2.bindingSources)
    (h : tasksFrom rendered influence start calls = some tasks) : ∀ task ∈ tasks,
      task.Sourced bindings := by
  induction calls generalizing start tasks with
  | nil =>
    obtain ⟨range, -, rfl⟩ := Option.map_eq_some_iff.mp h
    intro task htask
    rw [List.mem_singleton.mp htask]
    exact hrendered
  | cons call calls ih =>
    obtain ⟨range, frame⟩ := call
    unfold tasksFrom at h
    rw [Option.bind_eq_bind, Option.bind_eq_some_iff] at h
    obtain ⟨before, -, h⟩ := h
    rw [Option.bind_eq_bind, Option.bind_eq_some_iff] at h
    obtain ⟨rest, hrest, h⟩ := h
    obtain rfl := Option.some.inj h
    intro task htask
    rcases List.mem_cons.mp htask with rfl | htask
    · exact hrendered
    · rcases List.mem_cons.mp htask with rfl | htask
      · exact hcalls _ List.mem_cons_self
      · exact ih (fun call hcall => hcalls call (List.mem_cons_of_mem _ hcall)) hrest task htask

/-- The output that a round leaves. -/
def ExpansionStep.Sourced (bindings : Bindings) : ExpansionStep → Prop
  | .stop output => Hir.Sourced bindings output.pieces
  | .next expansion => expansion.Sourced bindings

variable {expansion : Expansion}

theorem sourced_pushTasks {frame : Frame} {hir : HirFile}
    {next : ExpansionStep} (h : expansion.Sourced bindings)
    (hrendered : Hir.Sourced bindings rendered.pieces)
    (hnext : world.pushTasks frame hir rendered expansion = some next) : next.Sourced bindings := by
  unfold pushTasks at hnext
  obtain ⟨tasks, htasks, rfl⟩ := Option.map_eq_some_iff.mp hnext
  have hscan : (hir.properties.foldl (world.scanProperty frame hir rendered)
      ⟨rendered, expansion.output, [], []⟩).Sourced bindings expansion.output := by
    have hstart : CallScan.Sourced bindings expansion.output ⟨rendered, expansion.output, [], []⟩ :=
      ⟨hrendered, rfl, fun _ hcall => absurd hcall List.not_mem_nil⟩
    generalize (⟨rendered, expansion.output, [], []⟩ : CallScan) = scan at hstart
    induction hir.properties generalizing scan with
    | nil => exact hstart
    | cons property properties ih => exact ih _ (hstart.scanProperty property)
  refine ⟨?_, fun task htask => ?_⟩
  · dsimp only
    rw [hscan.output]
    exact h.output
  · rcases List.mem_append.mp htask with htask | htask
    · refine sourced_tasksFrom hscan.rendered (fun call hcall => hscan.calls call ?_)
        htasks task htask
      exact (StableSort.perm_sortByKey _ _).mem_iff.mp hcall
    · exact h.work task htask

theorem pieces_withFrontier (rendered : RenderedText)
    (frontier : Option (Parser.ScriptParseLimit × Nat)) :
    (withFrontier rendered frontier).pieces = rendered.pieces := by
  cases frontier <;> rfl

theorem pieces_freshHir {schema : SchemaId} {state : ScopeState}
    {found : Option HirFile × RenderedText}
    (h : world.freshHir byteLimit schema state rendered = some found) :
    found.2.pieces = rendered.pieces := by
  unfold freshHir at h
  rw [Option.bind_eq_bind, Option.bind_eq_some_iff] at h
  obtain ⟨progress, -, h⟩ := h
  dsimp only at h
  split at h
  · rw [← Option.some.inj h]
    exact pieces_withFrontier _ _
  · rw [Option.bind_eq_bind, Option.bind_eq_some_iff] at h
    obtain ⟨hir, -, h⟩ := h
    rw [← Option.some.inj h]
    exact pieces_withFrontier _ _

/-- A frame that is entered comes from root arguments where its arguments do. -/
theorem sourced_enterFresh {frame : Frame} {next : ExpansionStep}
    (h : expansion.Sourced bindings) (hframe : SourcesWithin bindings frame.bindingSources)
    (hnext : world.enterFresh byteLimit frame expansion = some next) : next.Sourced bindings := by
  unfold enterFresh at hnext
  dsimp only at hnext
  split_ifs at hnext
  · rw [← Option.some.inj hnext]
    exact h.output
  · rw [← Option.some.inj hnext]
    exact h.output
  · simp only [Option.bind_eq_bind, Option.bind_eq_some_iff] at hnext
    obtain ⟨rendered, hrender, annotated, hannotate, hnext⟩ := hnext
    have hannotated : Hir.Sourced bindings annotated.pieces :=
      sourced_annotate hframe (unsourced_renderWithViews hrender) hannotate
    split_ifs at hnext
    · rw [← Option.some.inj hnext]
      exact h.output
    · rw [Option.bind_eq_some_iff] at hnext
      obtain ⟨⟨hir, text⟩, hfresh, hnext⟩ := hnext
      dsimp only at hnext
      cases hir with
      | none =>
        rw [← Option.some.inj hnext]
        exact h.output
      | some hir =>
        have htext : Hir.Sourced bindings text.pieces := by
          rw [show text.pieces = annotated.pieces from pieces_freshHir hfresh]
          exact hannotated
        refine sourced_pushTasks ?_ htext hnext
        refine ⟨h.output, fun task htask => ?_⟩
        rcases List.mem_cons.mp htask with rfl | htask
        · trivial
        · exact h.work task htask

theorem sourced_stepFresh {task : RenderTask} {next : ExpansionStep}
    (h : expansion.Sourced bindings) (htask : task.Sourced bindings)
    (hnext : world.stepFresh byteLimit expansion task = some next) : next.Sourced bindings := by
  cases task with
  | exit identity =>
    rw [← Option.some.inj hnext]
    exact ⟨h.output, h.work⟩
  | emit source range influence =>
    obtain ⟨⟨appended, output⟩, happend, rfl⟩ := Option.map_eq_some_iff.mp hnext
    have houtput : Hir.Sourced bindings output.pieces := sourced_appendSlice h.output htask happend
    dsimp only
    split_ifs
    · exact ⟨houtput, h.work⟩
    · exact houtput
  | enter frame => exact sourced_enterFresh h htask hnext

theorem sourced_run {output : RenderedTemplate} (h : expansion.Sourced bindings)
    (hcache : world.Valid byteLimit expansion.cache)
    (hrun : world.run byteLimit cacheBytes expansion = some output) :
    Hir.Sourced bindings output.pieces := by
  -- A step with caches leaves what one without leaves.
  have hstepped {expansion : Expansion} {task : RenderTask} {rest : List RenderTask}
    {next : ExpansionStep}
      (hwork : expansion.work = task :: rest) (h : expansion.Sourced bindings)
      (hcache : world.Valid byteLimit expansion.cache)
      (hstep : world.step byteLimit cacheBytes { expansion with work := rest } task = some next) :
      (forgetStep next).Sourced bindings := by
    have hrest : ∀ task ∈ rest, task.Sourced bindings :=
      fun task htask => h.work task (hwork ▸ List.mem_cons_of_mem _ htask)
    have hfresh :=
      (step_forget (show world.Valid byteLimit { expansion with work := rest }.cache from hcache)
      cacheBytes task).1
    rw [hstep] at hfresh
    have hforgotten : (forget { expansion with work := rest }).Sourced bindings := ⟨h.output, hrest⟩
    exact sourced_stepFresh hforgotten (h.work task (hwork ▸ List.mem_cons_self)) hfresh.symm
  induction expansion using run.induct world byteLimit cacheBytes with
  | case1 expansion hwork =>
    rw [run_of_nil hwork] at hrun
    rw [← Option.some.inj hrun]
    exact h.output
  | case2 expansion task rest hwork hstep =>
    rw [run_of_cons hwork, hstep] at hrun
    cases hrun
  | case3 expansion task rest hwork stopped hstep =>
    rw [run_of_cons hwork, hstep] at hrun
    rw [← Option.some.inj hrun]
    exact hstepped hwork h hcache hstep
  | case4 expansion task rest hwork next hstep ih =>
    rw [run_of_cons hwork, hstep] at hrun
    have hnext := hstepped hwork h hcache hstep
    exact ih ⟨hnext.output, hnext.work⟩
      ((step_forget (show world.Valid byteLimit { expansion with work := rest }.cache from hcache)
        cacheBytes task).2 next hstep) hrun

variable (world)

/-- The root arguments come from themselves. -/
theorem rootFrame_within (root : Nat) (bindings raw : Bindings) (present : Finset Str)
    (schema : SchemaId) (state : ScopeState) :
    SourcesWithin bindings (rootFrame root bindings raw present schema state).bindingSources := by
  intro name source hsource
  unfold rootFrame at hsource
  rw [Std.ExtTreeMap.getElem?_map] at hsource
  obtain ⟨value, hvalue, rfl⟩ := Option.map_eq_some_iff.mp hsource
  refine ⟨value, hvalue, fun offset hoffset => ?_⟩
  have hlt : offset < asU32 (byteLen value) + 1 := List.mem_range.mp hoffset
  have hle : asU32 (byteLen value) ≤ byteLen value := Nat.mod_le _ _
  omega

/-- Whatever the pieces of an expansion say of root arguments is true of them. -/
theorem renderExpanded_sourced {root : Nat} {raw : Bindings} {present : Finset Str}
    {schema : SchemaId} {state : ScopeState} {byteLimit : Nat} {output : RenderedTemplate}
    (h : world.renderExpanded root bindings raw present schema state byteLimit = some output) :
    Hir.Sourced bindings output.pieces := by
  have hempty : Hir.Sourced bindings [] := fun _ hpiece => absurd hpiece List.not_mem_nil
  unfold renderExpanded renderExpandedImpl at h
  dsimp only at h
  split at h
  · rw [← Option.some.inj h]
    exact hempty
  · refine sourced_run ⟨hempty, fun task htask => ?_⟩ valid_empty h
    rw [List.mem_singleton.mp htask]
    exact rootFrame_within root bindings raw present schema state

end RenderWorld

end ParadoxCode.Hir
