import ParadoxCode.Hir.RenderedTemplate

/-!
# Rendering one frame

`render_with_views` and `binding_use_positions` of `template_text.rs`. The checkpoint of a query
never stops it here.
-/

namespace ParadoxCode.Hir

open Rules

/-! ## The text of a template -/

/-- What one rendering reads. -/
structure RenderInputs where
  kind : Str
  name : Str
  bodyRange : TextRange
  /-- Where the source begins behind the opening brace. -/
  start : Nat
  bindings : Bindings
  present : Finset Str
  raw : Bindings
  scalarUses : Finset Nat
  rawScalarUses : Finset Nat
  scriptUses : Finset Nat
  byteLimit : Nat

/-- The variables of the loop. The last guard is the first of the list. -/
structure RenderState where
  output : RenderedText := {}
  offset : Nat := 0
  guards : List (Bool × Str) := []
  active : Bool := true
  quoted : Bool := false
  comment : Bool := false
  escaped : Bool := false
  steps : Nat := 0

/-- The outcome of one round. -/
inductive RenderStep where
  | stop (state : RenderState)
  | next (remaining : Str) (state : RenderState)

/-- The text up to the first `c` and the text behind it, where `c` is among the first `limit`
bytes. -/
def splitAtByte (limit : Nat) (c : Char) (text : Str) : Option (Str × Str) :=
  match text.dropWhile (· ≠ c) with
  | [] => none
  | _ :: after =>
    let before := text.takeWhile (· ≠ c)
    if byteLen before < limit then some (before, after) else none

def RenderState.limit (state : RenderState) (reason : AnalysisLimit) : RenderState :=
  { state with output := { state.output with coverage := state.output.coverage.limit reason } }

def RenderState.residual (state : RenderState) (reason : ResidualReason) : RenderState :=
  { state with output := { state.output with coverage := state.output.coverage.residual reason } }

/-- `raw.strip_prefix('"').and_then(|raw| raw.strip_suffix('"'))`. -/
def stripQuotes (raw : Str) : Option Str :=
  match raw with
  | '"' :: rest => if rest.getLast? = some '"' then some rest.dropLast else none
  | _ => none

/-- What a round is about to insert. -/
structure Insertion where
  value : Str
  length : Nat
  hole : Bool
  bindingName : Option Str

namespace RenderInputs

variable (inputs : RenderInputs)

/-- The definition-side position of an offset. -/
def position (offset : Nat) : Nat := inputs.bodyRange.start + asU32 inputs.start + asU32 offset

/-- The spelling under which a bound parameter is inserted. -/
def spelling (state : RenderState) (name value : Str) : Str :=
  let supplied := inputs.raw[name]?
  if state.quoted then (supplied.bind stripQuotes).getD value
  else if inputs.position state.offset ∈ inputs.rawScalarUses then supplied.getD value
  else value

/-- The new last piece of the output. -/
def piece (state : RenderState) (insertion : Insertion) (range origin : TextRange)
    (dependencies : Finset Str) : SourcePiece where
  origin := (inputs.kind, inputs.name)
  range := range
  definitionRange := origin
  script := inputs.position state.offset ∈ inputs.scriptUses
  parameters := dependencies
  uncertainText := insertion.bindingName.isSome && decide ('$' ∈ insertion.value)
  bindingName := insertion.bindingName
  bindingSource := none
  structuralHole := insertion.hole && !state.quoted &&
    !decide (inputs.position state.offset ∈ inputs.scalarUses)
  hole := insertion.hole

/-- Whether a text without a binding continues a piece. -/
def continues (previous : SourcePiece) (insertion : Insertion) (origin : TextRange)
    (dependencies : Finset Str) : Bool :=
  insertion.bindingName.isNone && previous.bindingName.isNone &&
    decide (previous.parameters = dependencies) && !previous.hole &&
    decide (previous.definitionRange.stop = origin.start)

/-- The pieces when a text is inserted. -/
def extendPieces (state : RenderState) (insertion : Insertion) (range origin : TextRange)
    (dependencies : Finset Str) : Option (List SourcePiece) :=
  let pieces := state.output.pieces
  match pieces.getLast? with
  | some previous =>
    if continues previous insertion origin dependencies then do
      let range ← TextRange.new previous.range.start range.stop
      let definitionRange ← TextRange.new previous.definitionRange.start origin.stop
      some (pieces.dropLast ++
        [{ previous with range := range, definitionRange := definitionRange }])
    else some (pieces ++ [inputs.piece state insertion range origin dependencies])
  | none => some (pieces ++ [inputs.piece state insertion range origin dependencies])

/-- The end of a round: the text is inserted where the guards are met. -/
def insert (state : RenderState) (remaining : Str) (insertion : Insertion) : Option RenderStep :=
  let next := state.offset + insertion.length
  let dependencies := (state.guards.map Prod.snd).toFinset ∪ insertion.bindingName.toFinset
  if state.active = false then some (.next remaining { state with offset := next })
  else
    let length := byteLen state.output.text
    if byteLen insertion.value > inputs.byteLimit - length then
      some (.stop (state.limit .textBytes))
    else do
      let text := state.output.text ++ insertion.value
      let range ← TextRange.new (asU32 length) (asU32 (byteLen text))
      let origin := (TextRange.new (inputs.position state.offset) (inputs.position next)).getD
        inputs.bodyRange
      let pieces ← inputs.extendPieces state insertion range origin dependencies
      some (.next remaining { state with
        offset := next
        output := { state.output with text := text, pieces := pieces } })

/-- A parameter: its value, or a hole. -/
def insertParameter (state : RenderState) (before after : Str) : Option RenderStep :=
  let name := toAsciiLowercase before
  let length := byteLen before + 2
  let state := { state with escaped := false }
  match inputs.bindings[name]? with
  | some value =>
    let state := if '$' ∈ value then state.residual .textInterpretation else state
    inputs.insert state after ⟨inputs.spelling state name value, length, false, some name⟩
  | none =>
    inputs.insert (state.residual .binding) after
      ⟨"__pdc_hole_".toList ++ name, length, true, some name⟩

/-- The lexical context behind a character. -/
def lex (state : RenderState) (c : Char) : RenderState :=
  if state.comment then { state with comment := decide (c ≠ '\n') }
  else if state.quoted then
    if state.escaped then { state with escaped := false }
    else if c = '\\' then { state with escaped := true }
    else if c = '"' then { state with quoted := false }
    else state
  else if c = '#' then { state with comment := true }
  else if c = '"' then { state with quoted := true }
  else state

/-- One round of the loop at a character. -/
def step (state : RenderState) (c : Char) (rest : Str) : Option RenderStep :=
  let state := { state with steps := state.steps + 1 }
  let free := !state.quoted && !state.comment
  if state.steps > 1000000 then some (.stop (state.limit .nodes))
  else if free && c = '[' && rest.head? = some '[' then
    match splitAtByte inputs.byteLimit ']' (c :: rest) with
    | none => some (.stop (state.limit .structuralRecovery))
    | some (before, after) =>
      let condition := before.drop 2
      let (negated, name) :=
        match condition with
        | '!' :: name => (true, name)
        | name => (false, name)
      let name := toAsciiLowercase name
      some (.next after { state with
        guards := (state.active, name) :: state.guards
        active := state.active && (decide (name ∈ inputs.present) != negated)
        offset := state.offset + byteLen before + 1 })
  else if free && c = ']' && state.guards ≠ [] then
    some (.next rest { state with
      guards := state.guards.tail
      active := state.guards.head?.any Prod.fst
      offset := state.offset + 1 })
  else if !state.comment && c = '$' then
    match splitAtByte inputs.byteLimit '$' rest with
    | none => some (.stop (state.limit .structuralRecovery))
    | some (before, after) => inputs.insertParameter state before after
  else inputs.insert (lex state c) rest ⟨[c], c.utf8Size, false, none⟩

end RenderInputs

theorem length_splitAtByte {limit : Nat} {c : Char} {text before after : Str}
    (h : splitAtByte limit c text = some (before, after)) : after.length < text.length := by
  unfold splitAtByte at h
  split at h
  · cases h
  · rename_i d rest hrest
    dsimp only at h
    split_ifs at h
    obtain ⟨-, rfl⟩ := Prod.mk.inj (Option.some.inj h)
    calc rest.length < (d :: rest).length := Nat.lt_succ_self _
      _ ≤ text.length := hrest ▸ (List.dropWhile_suffix _).length_le

theorem RenderInputs.insert_remaining {inputs : RenderInputs} {state next : RenderState}
    {remaining after : Str} {insertion : Insertion}
    (h : inputs.insert state remaining insertion = some (.next after next)) :
    after = remaining := by
  unfold insert at h
  dsimp only at h
  split at h
  · exact (RenderStep.next.inj (Option.some.inj h)).1.symm
  · split at h
    · cases h
    · simp only [Option.bind_eq_bind, Option.bind_eq_some_iff] at h
      obtain ⟨_, -, _, -, h⟩ := h
      exact (RenderStep.next.inj (Option.some.inj h)).1.symm

theorem RenderInputs.insertParameter_remaining {inputs : RenderInputs} {state next : RenderState}
    {before remaining after : Str}
    (h : inputs.insertParameter state before remaining = some (.next after next)) :
    after = remaining := by
  unfold insertParameter at h
  dsimp only at h
  split at h
  · exact insert_remaining h
  · exact insert_remaining h

/-- Every round takes a part of the source. -/
theorem RenderInputs.length_step {inputs : RenderInputs} {state next : RenderState} {c : Char}
    {rest after : Str} (h : inputs.step state c rest = some (.next after next)) :
    after.length < (c :: rest).length := by
  unfold step at h
  dsimp only at h
  split at h
  · cases h
  split at h
  · split at h
    · cases h
    · rename_i before after' hsplit
      obtain ⟨rfl, -⟩ := RenderStep.next.inj (Option.some.inj h)
      exact length_splitAtByte hsplit
  split at h
  · obtain ⟨rfl, -⟩ := RenderStep.next.inj (Option.some.inj h)
    exact Nat.lt_succ_self _
  split at h
  · split at h
    · cases h
    · rename_i before after' hsplit
      rw [insertParameter_remaining h]
      exact Nat.lt_succ_of_lt (length_splitAtByte hsplit)
  · rw [insert_remaining h]
    exact Nat.lt_succ_self _

/-- The loop of `render_with_views`. -/
def RenderInputs.loop (inputs : RenderInputs) (remaining : Str) (state : RenderState) :
    Option RenderState :=
  match remaining with
  | [] => some state
  | c :: rest =>
    match _h : inputs.step state c rest with
    | none => none
    | some (.stop state) => some state
    | some (.next after state) => inputs.loop after state
termination_by remaining.length
decreasing_by exact inputs.length_step _h

/-- The source without the braces around it. -/
def bodyOf (source : Str) : Option Str :=
  let start := if source.head? = some '{' then 1 else 0
  let stop := byteLen source - if source.getLast? = some '}' then 1 else 0
  getText source start stop

/-- `render_with_views`. -/
def renderWithViews (template : Template) (bindings : Bindings) (present : Finset Str)
    (raw : Bindings) (scalarUses rawScalarUses scriptUses : Finset Nat) (byteLimit : Nat) :
    Option RenderedText :=
  let output : RenderedText := {}
  if template.source = [] then
    some { output with coverage := output.coverage.limit .unavailableTemplate, frontiers := [0] }
  else
    match bodyOf template.source with
    | none =>
      some { output with coverage := output.coverage.limit .structuralRecovery, frontiers := [0] }
    | some source => do
      let start := if template.source.head? = some '{' then 1 else 0
      let inputs : RenderInputs := ⟨template.kind, template.name, template.bodyRange, start,
        bindings, present, raw, scalarUses, rawScalarUses, scriptUses, byteLimit⟩
      let state ← inputs.loop source {}
      let state := if state.guards = [] then state else state.limit .structuralRecovery
      if state.output.coverage.limits = ∅ then some state.output
      else some { state.output with
        frontiers := state.output.frontiers ++ [asU32 (byteLen state.output.text)] }

/-! ## Where parameters are used -/

/-- The three sets of `binding_use_positions`, and what it has visited. -/
structure UsePositions where
  scalar : Finset Nat := ∅
  raw : Finset Nat := ∅
  script : Finset Nat := ∅
  visited : Finset (Nat × SchemaId) := ∅

/-- Where a token reads parameters. -/
def readPositions (token : TemplateToken) : Finset Nat :=
  (token.fragments.filterMap fun
    | .parameter _ range => some range.start
    | .literal _ => none).toFinset

/-- What `binding_use_positions` asks the rules for. -/
structure UseRules extends TemplateRules where
  /-- `field_candidates` under the facts of a dispatch. -/
  candidates : SchemaId → Str → Shape → List FieldId

namespace UseRules

variable (rules : UseRules) (bindings : Bindings)

/-- The fields that a key selects, with a scalar or with a block. -/
def fieldsOf (schema : SchemaId) (key : Str) : List FieldId :=
  rules.candidates schema key .scalar ++ rules.candidates schema key .block

/-- What an instruction adds to the sets. -/
def read (schema : SchemaId) (uses : UsePositions) : TemplateInstruction → UsePositions
  | .consume token => { uses with script := uses.script ∪ readPositions token }
  | .recover token => { uses with script := uses.script ∪ readPositions token }
  | .when _ _ _ => uses
  | .dispatch property =>
    match tokenValue property.key bindings, property.value with
    | some key, .scalar token =>
      let fields := rules.fieldsOf schema key
      let acceptsScalar := fields.any fun id => rules.shape id == some .scalar
      let acceptsBlock := fields.any fun id => rules.shape id == some .block
      if acceptsScalar && !acceptsBlock then
        { uses with
          scalar := uses.scalar ∪ readPositions token
          raw := if !token.quoted && token.fragments.length == 1 then
            insert token.range.start uses.raw
            else uses.raw }
      else if acceptsBlock && !acceptsScalar then
        { uses with script := uses.script ∪ readPositions token }
      else uses
    | _, _ => uses

/-- The blocks that an instruction pushes. -/
def pushes (schema : SchemaId) : TemplateInstruction → List (Nat × SchemaId)
  | .consume _ => []
  | .recover _ => []
  | .when _ _ block => [(block, schema)]
  | .dispatch property =>
    match tokenValue property.key bindings, property.value with
    | some key, .block block =>
      (rules.fieldsOf schema key).filterMap fun id => (rules.child id schema).map fun child =>
        (block, child)
    | _, _ => []

theorem child_of_mem_pushes {schema : SchemaId} {instruction : TemplateInstruction}
    {pending : Nat × SchemaId} (h : pending ∈ rules.pushes bindings schema instruction) :
    instruction.child = some pending.1 := by
  cases instruction with
  | recover token => cases h
  | consume token => cases h
  | when name negated block =>
    obtain rfl := List.mem_singleton.mp h
    rfl
  | dispatch property =>
    obtain ⟨key, range, operator, value⟩ := property
    unfold pushes at h
    dsimp only at h
    split at h
    · obtain ⟨id, -, hid⟩ := List.mem_filterMap.mp h
      obtain ⟨child, -, rfl⟩ := Option.map_eq_some_iff.mp hid
      rfl
    · cases h

/-- One round of the loop of `binding_use_positions`. -/
def visit (program : TemplateProgram) :
    Stack.Visit (InvImage program.Below fun pending : Nat × SchemaId => pending.1)
      UsePositions where
  run uses pending :=
    if pending ∈ uses.visited then (uses, [])
    else
      let instructions := program.block pending.1
      (instructions.foldl (rules.read bindings pending.2)
          { uses with visited := insert pending uses.visited },
        (instructions.flatMap (rules.pushes bindings pending.2)).reverse)
  below uses pending other h := by
    dsimp only at h
    split_ifs at h
    · cases h
    · rw [List.mem_reverse] at h
      obtain ⟨instruction, hinstruction, h⟩ := List.mem_flatMap.mp h
      exact program.below_of_mem hinstruction (rules.child_of_mem_pushes bindings h)

/-- `binding_use_positions`. -/
def bindingUsePositions (program : TemplateProgram) (schema : SchemaId) : UsePositions :=
  Stack.drain (rules.visit bindings program) [(0, schema)] {}

end UseRules

end ParadoxCode.Hir
