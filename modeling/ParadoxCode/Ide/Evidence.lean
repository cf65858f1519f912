import ParadoxCode.Hir.BindingOffsets
import ParadoxCode.Ide.SemanticTokens
import ParadoxCode.Lib.AsciiCase

/-!
# Where evidence is shown

`ir_template.rs` of the ide crate: the check of an expanded template body gives evidence in terms of
the rendered text, and the evidence is shown in the call that was expanded. Lowering is a parameter,
and the memo of instances is left out.
-/

namespace ParadoxCode.Ide.Evidence

open Format (eqIgnoreAsciiCase)
open Hir (Bindings HirProperty HirScalar RenderedTemplate ScopeState SourcePiece Sourced
    bindingRange bindingValue
  collectNode collectNodes directScalar propertyOf)
open ParadoxCode.Parser
open SemanticTokens
    (ScriptDocument Syntax TemplateInstance TokenHir arguments projectBindingRange
    projectSourceRange)

/-! ## The arguments and the instance of a call -/

/-- The property is an argument of an invocation with the path of this one. -/
def isArgument (invocation argument : HirProperty) : Bool :=
  argument.path.length == invocation.path.length + 1 && invocation.path.isPrefixOf argument.path

/-- The property lies inside the invocation. -/
def isInside (invocation argument : HirProperty) : Bool :=
  decide (invocation.range.start ≤ argument.range.start) &&
    decide (argument.range.stop ≤ invocation.range.stop)

/-- The arguments that `analyse_body` binds. -/
def callArguments (source : TokenHir) (invocation : HirProperty) : List HirProperty :=
  (arguments source invocation).filter (isInside invocation)

/-- What `analyse_body` renders a template with. -/
structure RootArguments where
  bindings : Bindings := ∅
  raw : Bindings := ∅
  present : Finset Str := ∅

/-- One round of the loop over the arguments, without overrides and edits. -/
def RootArguments.add (syn : ParsedFile) (bound : RootArguments) (argument : HirProperty) :
    RootArguments :=
  let name := toAsciiLowercase argument.key
  let present := insert name bound.present
  match argument.scalar with
  | none => { bound with present := present }
  | some scalar => {
      bindings := bound.bindings.insert name (bindingValue syn scalar)
      raw := match syn.text scalar.range with
        | some value => bound.raw.insert name value
        | none => bound.raw
      present := present }

def rootArguments (source : TokenHir) (invocation : HirProperty) : RootArguments :=
  (callArguments source invocation).foldl (RootArguments.add source.syn.file) {}

/-- `instantiate`, without markers. -/
def instantiate (world : Hir.RenderWorld) (lower : ParsedFile → RenderedTemplate → Option TokenHir)
    (template : Nat) (bound : RootArguments) (schema : Hir.SchemaId) (state : ScopeState) :
    Option TemplateInstance := do
  let rendered ← world.renderExpanded template bound.bindings bound.raw bound.present schema
    state (1024 * 1024)
  let progress ← Hir.RenderWorld.parsePrefix (1024 * 1024) rendered.text
  let text := Hir.RenderWorld.withFrontier rendered.toRenderedText progress.frontier
  let rendered := { rendered with toRenderedText := text }
  let parsed ← progress.parsed <|> parse .script []
  let hir ← lower parsed rendered
  some ⟨rendered, hir⟩

/-! ## The range that evidence is shown in -/

/-- `IssueKind`; `malformed` is its `Syntax`. -/
inductive IssueKind where
  | malformed
  | key
  | value
  | scope
  | cardinality
  | orphanElse
  | logicalContainer
  | constantCondition
  | missingLimit
  | emptyBlock
  deriving DecidableEq

structure ConstraintEvidence where
  kind : IssueKind
  range : TextRange
  container : TextRange
  deriving DecidableEq

/-- The piece is around the evidence. -/
def covers (piece : SourcePiece) (evidence : ConstraintEvidence) : Bool :=
  decide (piece.range.start ≤ evidence.range.start) && decide
    (evidence.range.stop ≤ piece.range.stop)

/-- `evidence_dependencies`. -/
def evidenceDependencies (body : TemplateInstance) (evidence : ConstraintEvidence) : Finset Str :=
  let dependencies := body.rendered.dependencies evidence.range
  let parents := body.hir.properties.filter fun parent =>
    decide (parent.range.start ≤ evidence.range.start) && decide
      (evidence.range.stop ≤ parent.range.stop)
  let siblings :=
    if evidence.kind = .cardinality then
      body.hir.properties.filter fun property =>
        decide (evidence.container.start ≤ property.keyRange.start) &&
          decide (property.keyRange.stop ≤ evidence.container.stop)
    else []
  (parents ++ siblings).foldl (fun names property => names ∪ body.rendered.dependencies
    property.keyRange) dependencies

/-- Where a part of the value of a scalar stands in its spelling. -/
def spelled (source : ParsedFile) (scalar : HirScalar) (relative : TextRange) : Option TextRange :=
  if scalar.quoted then
    ((source.text scalar.range).bind decodeQuotedScript).bind fun decoded =>
      decoded.2.decodedRange relative
  else some relative

/-- A part of the spelling of a scalar in the document. The additions are those of `u32`. -/
def scalarPart (scalar : HirScalar) (part : TextRange) : TextRange :=
  (TextRange.new (asU32 (scalar.range.start + part.start))
    (asU32 (scalar.range.start + part.stop))).getD scalar.range

section

variable (body : TemplateInstance) (evidence : ConstraintEvidence) (source : TokenHir)
    (invocation : HirProperty)

/-- The argument that the loop over the pieces looks up. -/
def namedArgument (parameter : Str) : Option HirProperty :=
  source.properties.find? fun argument => isArgument invocation argument &&
    eqIgnoreAsciiCase argument.key parameter

/-- One round of the loop over the pieces. -/
def bindingTarget (piece : SourcePiece) : Option TextRange :=
  if !covers piece evidence then none
  else do
    let mapping ← piece.bindingSource
    let argument ← namedArgument source invocation mapping.parameter
    let scalar ← argument.scalar
    let start ← mapping.offsets[evidence.range.start - piece.range.start]?
    let stop ← mapping.offsets[evidence.range.stop - piece.range.start]?
    let relative ← TextRange.new start stop
    let part ← spelled source.syn.file scalar relative
    some (scalarPart scalar part)

/-- The argument that the evidence is shown at where no piece maps it. -/
def dependentArgument : Option HirProperty :=
  source.properties.find? fun argument =>
    isArgument invocation argument && decide (toAsciiLowercase argument.key ∈ evidenceDependencies
      body evidence)

/-- The part of a scalar that one piece renders alone. -/
def scalarTarget (key : Str) (scalar : HirScalar) : TextRange :=
  match body.rendered.pieces.find? fun piece =>
      piece.parameters.card == 1 && decide (toAsciiLowercase key ∈ piece.parameters) &&
        covers piece evidence with
  | none => scalar.range
  | some piece =>
    if getText body.rendered.text piece.range.start piece.range.stop = some scalar.value then
      ((TextRange.new (evidence.range.start - piece.range.start)
        (evidence.range.stop - piece.range.start)).bind (spelled source.syn.file scalar)).elim
        scalar.range (scalarPart scalar)
    else scalar.range

/-- What is shown where no piece maps the evidence. -/
def displayRange : TextRange :=
  match dependentArgument body evidence source invocation with
  | none => invocation.keyRange
  | some argument =>
    match argument.scalar with
    | none => argument.valueRange.getD argument.range
    | some scalar => scalarTarget body evidence source argument.key scalar

/-- `project_evidence_range`. -/
def projectEvidenceRange : TextRange :=
  (body.rendered.pieces.findSome? (bindingTarget evidence source invocation)).getD
    (displayRange body evidence source invocation)

end

/-! ## The parts of a property lie inside it -/

/-- A range lies inside another one. -/
def Inside (inner outer : TextRange) : Prop := outer.start ≤ inner.start ∧ inner.stop ≤ outer.stop

instance (inner outer : TextRange) : Decidable (Inside inner outer) :=
  inferInstanceAs (Decidable (_ ∧ _))

theorem Inside.trans {a b c : TextRange} (h : Inside a b) (h' : Inside b c) : Inside a c :=
  ⟨h'.1.trans h.1, h.2.trans h'.2⟩

theorem isInside_iff {invocation argument : HirProperty} :
    isInside invocation argument = true ↔ Inside argument.range invocation.range := by
  unfold isInside Inside
  rw [Bool.and_eq_true, decide_eq_true_eq, decide_eq_true_eq]

theorem inside_of_mem {nodes : List CstNode} {start stop : Nat}
    (h : CstNode.AllInOrder nodes start stop) {node : CstNode} (hnode : node ∈ nodes) :
    start ≤ node.range.start ∧ node.range.stop ≤ stop ∧ node.InOrder := by
  induction nodes generalizing start with
  | nil => cases hnode
  | cons first rest ih =>
    rw [CstNode.AllInOrder] at h
    rcases List.mem_cons.mp hnode with rfl | hnode
    · exact ⟨h.1, h.2.2.le, h.2.1⟩
    · obtain ⟨hstart, hstop, horder⟩ := ih h.2.2 hnode
      exact ⟨h.1.trans (first.range.le.trans hstart), hstop, horder⟩

theorem child_inside {node child : CstNode} (h : node.InOrder) (hchild : child ∈ node.children) :
    Inside child.range node.range ∧ child.InOrder := by
  obtain ⟨kind, range, children⟩ := node
  rw [CstNode.inOrder_mk] at h
  obtain ⟨hstart, hstop, horder⟩ := inside_of_mem h hchild
  exact ⟨⟨hstart, hstop⟩, horder⟩

/-- What a parsed property says of the source. -/
structure Placed (syn : ParsedFile) (property : HirProperty) : Prop where
  key : Inside property.keyRange property.range
  value : ∀ range ∈ property.valueRange, Inside range property.range
  scalar : ∀ scalar ∈ property.scalar, Inside scalar.range property.range
  spelling : ∀ scalar ∈ property.scalar, ∃ text, syn.text scalar.range = some text ∧
    (scalar.quoted = false → scalar.value = trim text)

variable {syn : ParsedFile} {scalar : HirScalar}

theorem directScalar_placed {node : CstNode} (h : node.InOrder)
    (hscalar : directScalar syn node = some scalar) :
    Inside scalar.range node.range ∧ ∃ text, syn.text scalar.range = some text ∧
      (scalar.quoted = false → scalar.value = trim text) := by
  unfold directScalar at hscalar
  simp only [Option.bind_eq_bind, Option.bind_eq_some_iff] at hscalar
  obtain ⟨value, hvalue, token, htoken, text, htext, hscalar⟩ := hscalar
  obtain ⟨hinside, horder⟩ := child_inside h (List.mem_of_find?_eq_some hvalue)
  obtain ⟨hinside', -⟩ := child_inside horder (List.mem_of_find?_eq_some htoken)
  obtain rfl := Option.some.inj hscalar
  refine ⟨hinside'.trans hinside, text, htext, fun hquoted => ?_⟩
  rw [decide_eq_false_iff_not] at hquoted
  exact if_neg hquoted

theorem propertyOf_placed {node : CstNode} {path : List Str} {property : HirProperty}
    (h : node.InOrder) (hproperty : propertyOf syn node path = some property) :
    Placed syn property ∧ property.range = node.range := by
  unfold propertyOf at hproperty
  split_ifs at hproperty
  simp only [Option.bind_eq_bind, Option.bind_eq_some_iff] at hproperty
  obtain ⟨keyNode, hkey, text, -, hproperty⟩ := hproperty
  split_ifs at hproperty
  obtain rfl := Option.some.inj hproperty
  refine ⟨⟨(child_inside h (List.mem_of_find?_eq_some hkey)).1, fun range hrange => ?_,
    fun scalar hscalar => (directScalar_placed h hscalar).1, fun scalar hscalar =>
      (directScalar_placed h hscalar).2⟩, rfl⟩
  obtain ⟨value, hvalue, rfl⟩ := Option.map_eq_some_iff.mp hrange
  exact (child_inside h (List.mem_of_find?_eq_some hvalue)).1

mutual

theorem collectNode_placed {syn : ParsedFile} {path : List Str} {property : HirProperty} :
    ∀ node : CstNode, node.InOrder → property ∈ collectNode syn path node → Placed syn property
  | .mk kind range children, horder, hproperty => by
    have hchildren := (CstNode.inOrder_mk).mp horder
    rw [collectNode] at hproperty
    split at hproperty
    · rename_i found hfound
      rcases List.mem_cons.mp hproperty with rfl | hproperty
      · exact (propertyOf_placed horder hfound).1
      · exact collectNodes_placed children hchildren hproperty
    · exact collectNodes_placed children hchildren hproperty

theorem collectNodes_placed {syn : ParsedFile} {path : List Str} {property : HirProperty}
    {start stop : Nat} :
    ∀ nodes : List CstNode, CstNode.AllInOrder nodes start stop →
      property ∈ collectNodes syn path nodes → Placed syn property
  | [], _, hproperty => by
    rw [collectNodes] at hproperty
    cases hproperty
  | node :: nodes, horder, hproperty => by
    rw [CstNode.AllInOrder] at horder
    rw [collectNodes] at hproperty
    rcases List.mem_append.mp hproperty with hproperty | hproperty
    · exact collectNode_placed node horder.2.1 hproperty
    · exact collectNodes_placed nodes horder.2.2 hproperty

end

/-! ## The arguments that were rendered are the last ones -/

/-- The argument of a name that the renderer was given. -/
def lastArgument (source : TokenHir) (invocation : HirProperty) (parameter : Str) :
    Option HirProperty :=
  (callArguments source invocation).reverse.find? fun argument =>
    eqIgnoreAsciiCase argument.key parameter && argument.scalar.isSome

theorem eqIgnoreAsciiCase_iff {left right : Str} :
    eqIgnoreAsciiCase left right = true ↔ toAsciiLowercase left = toAsciiLowercase right := by
  unfold eqIgnoreAsciiCase toAsciiLowercase
  rw [beq_iff_eq]

theorem toAsciiLowercase_idem (text : Str) : toAsciiLowercase (toAsciiLowercase text) =
    toAsciiLowercase text :=
  AsciiCase.map_toLower_map_toLower text

/-- A binding is the value of the last scalar of its name. -/
theorem bindings_foldl_add {parameter value : Str} (properties : List HirProperty)
    (h : (properties.foldl (RootArguments.add syn) {}).bindings[parameter]? = some value) :
    toAsciiLowercase parameter = parameter ∧ ∃ argument scalar,
      properties.reverse.find? (fun argument => eqIgnoreAsciiCase argument.key parameter &&
          argument.scalar.isSome) =
          some argument ∧
        argument.scalar = some scalar ∧ value = bindingValue syn scalar := by
  induction properties using List.reverseRecOn with
  | nil =>
    rw [List.foldl_nil, show ({} : RootArguments).bindings[parameter]? =
      none from Std.ExtTreeMap.getElem?_empty] at h
    cases h
  | append_singleton properties last ih =>
    rw [List.foldl_append, List.foldl_cons, List.foldl_nil] at h
    rw [List.reverse_append, List.reverse_singleton, List.singleton_append]
    unfold RootArguments.add at h
    dsimp only at h
    cases hscalar : last.scalar with
    | none =>
      rw [hscalar] at h
      rw [List.find?_cons_of_neg (by simp [hscalar])]
      exact ih h
    | some scalar =>
      rw [hscalar] at h
      dsimp only at h
      rw [Std.ExtTreeMap.getElem?_insert] at h
      split at h
      · rename_i heq
        have hname : toAsciiLowercase last.key = parameter := Std.LawfulEqOrd.eq_of_compare heq
        have hlower : toAsciiLowercase parameter = parameter :=
          hname ▸ toAsciiLowercase_idem last.key
        refine ⟨hlower, last, scalar, ?_, hscalar, (Option.some.inj h).symm⟩
        rw [List.find?_cons_of_pos]
        rw [hscalar, Option.isSome_some, Bool.and_true, eqIgnoreAsciiCase_iff, hlower, hname]
      · rename_i hne
        obtain ⟨hlower, argument, found, hfind, hrest⟩ := ih h
        refine ⟨hlower, argument, found, ?_, hrest⟩
        rw [List.find?_cons_of_neg, hfind]
        rw [hscalar, Option.isSome_some, Bool.and_true, eqIgnoreAsciiCase_iff, hlower]
        rintro rfl
        exact hne Std.ReflOrd.compare_self

/-! ## A call and its evidence -/

/-- A call in a document, with the instance of its template under its arguments. -/
structure TemplateCall where
  document : ScriptDocument
  source : TokenHir
  syn : source.syn = document.parsed
  collected : source.properties = collectNode document.parsed.file [] document.parsed.root
  invocation : HirProperty
  called : invocation ∈ source.properties
  body : TemplateInstance
  sourced : Sourced (rootArguments source invocation).bindings body.rendered.pieces

/-- The instance that `analyse_body` makes for a call belongs to it. -/
def TemplateCall.ofInstantiate (document : ScriptDocument) (source : TokenHir)
    (hsyn : source.syn = document.parsed)
    (hcollected : source.properties = collectNode document.parsed.file [] document.parsed.root)
    (invocation : HirProperty) (hcalled : invocation ∈ source.properties) (world : Hir.RenderWorld)
    (lower : ParsedFile → RenderedTemplate → Option TokenHir) (template : Nat)
    (schema : Hir.SchemaId) (state : ScopeState) (body : TemplateInstance)
    (h : instantiate world lower template (rootArguments source invocation) schema
      state = some body) :
    TemplateCall where
  document := document
  source := source
  syn := hsyn
  collected := hcollected
  invocation := invocation
  called := hcalled
  body := body
  sourced := by
    unfold instantiate at h
    simp only [Option.bind_eq_bind, Option.bind_eq_some_iff] at h
    obtain ⟨rendered, hrendered, progress, -, parsed, -, hir, -, h⟩ := h
    obtain rfl := Option.some.inj h
    have hpieces := Hir.RenderWorld.pieces_withFrontier rendered.toRenderedText progress.frontier
    dsimp only
    rw [hpieces]
    exact world.renderExpanded_sourced hrendered

section

variable (body : TemplateInstance) (evidence : ConstraintEvidence) (source : TokenHir)
    (invocation : HirProperty)

/-- Where a piece maps the evidence in the argument that was rendered. -/
def lastTarget (piece : SourcePiece) : Option TextRange :=
  if !covers piece evidence then none
  else do
    let mapping ← piece.bindingSource
    let start ← mapping.offsets[evidence.range.start - piece.range.start]?
    let stop ← mapping.offsets[evidence.range.stop - piece.range.start]?
    let relative ← TextRange.new start stop
    projectBindingRange mapping.parameter relative source.syn.file (callArguments source invocation)

/-- The call owns the keys that its evidence is looked up by: up to the first piece that maps the
evidence where it was rendered last, a key that stands for a root argument is first found there, and
where no piece maps the evidence, the first property on the path of the arguments that it depends on
lies in the call. -/
structure Owned : Prop where
  named : ∀ before piece after, body.rendered.pieces = before ++ piece :: after →
    (∀ other ∈ before, lastTarget evidence source invocation other = none) →
      covers piece evidence = true → ∀ mapping ∈ piece.bindingSource,
        namedArgument source invocation mapping.parameter =
          lastArgument source invocation mapping.parameter
  dependent : (∀ piece ∈ body.rendered.pieces, lastTarget evidence source invocation piece = none) →
    ∀ argument ∈ dependentArgument body evidence source invocation,
      Inside argument.range invocation.range

end

/-- The evidence is shown in the call, and where it has an exact projection, there. -/
def Lands (body : TemplateInstance) (evidence : ConstraintEvidence) (source : TokenHir)
    (invocation : HirProperty) : Prop :=
  Inside (projectEvidenceRange body evidence source invocation) invocation.range ∧
    ∀ exact ∈ projectSourceRange body evidence.range source invocation,
      projectEvidenceRange body evidence source invocation = exact

/-! ### Parts of a scalar -/

theorem byteLen_dropWhile_le (p : Char → Bool) (text : Str) :
    byteLen (text.dropWhile p) ≤ byteLen text := by
  have hsplit := congrArg byteLen (List.takeWhile_append_dropWhile (p := p) (l := text))
  rw [byteLen_append] at hsplit
  omega

theorem byteLen_reverse (text : Str) : byteLen text.reverse = byteLen text := by
  induction text with
  | nil => rfl
  | cons c text ih =>
    rw [List.reverse_cons, byteLen_append, ih, byteLen_cons, byteLen_cons]
    exact Nat.add_comm _ _

theorem byteLen_trim_le (text : Str) : byteLen (trim text) ≤ byteLen text := by
  unfold trim
  rw [byteLen_reverse]
  refine (byteLen_dropWhile_le _ _).trans ?_
  rw [byteLen_reverse]
  exact byteLen_dropWhile_le _ _

/-- A decoded boundary stands in the spelling. -/
theorem decodedOffset_le {text decoded : Str} {map : QuotedScriptSourceMap}
    (h : decodeQuotedScript text = some (decoded, map)) {offset target : Nat}
    (htarget : map.decodedOffset offset = some target) : target ≤ byteLen text := by
  have hcells {payload : Str} (hle : byteLen payload + 1 ≤ byteLen text)
      (hdecode : decodePayload payload (byteLen text) = some (decoded, map)) :
        target ≤ byteLen text := by
    obtain ⟨cells, hcells, -, -, rfl⟩ := (decodePayload_eq_some_iff (by omega)).mp hdecode
    have hpayload := payload_of_cellsOf hcells
    rcases List.mem_cons.mp (List.mem_of_getElem? htarget) with rfl | hmem
    · omega
    · have := (mem_entriesFrom hmem).2
      rw [← hpayload] at this
      omega
  unfold decodeQuotedScript at h
  split at h
  · rename_i payload
    have hlen : byteLen ('"' :: payload) = 1 + byteLen payload := byteLen_cons '"' payload
    split_ifs at h with hclosed hlast
    · have hdrop := congrArg byteLen (List.dropLast_append_getLast? _ hlast)
      rw [byteLen_append] at hdrop
      exact hcells (by omega) h
    · exact hcells (by omega) h
  · cases h

/-- A part of the value of a scalar stands in its spelling. -/
theorem spelled_le {text : Str} {relative part : TextRange}
    (htext : syn.text scalar.range = some text)
    (hrelative : scalar.quoted = false → relative.stop ≤ byteLen text)
    (h : spelled syn scalar relative = some part) : scalar.range.start + part.stop ≤
      scalar.range.stop := by
  obtain ⟨-, -, -, -, hlen⟩ := getText_eq_some_iff.mp htext
  unfold spelled at h
  split_ifs at h with hquoted
  · rw [htext, Option.bind_some, Option.bind_eq_some_iff] at h
    obtain ⟨⟨decoded, map⟩, hdecode, h⟩ := h
    unfold QuotedScriptSourceMap.decodedRange at h
    split at h
    · rename_i hstop
      unfold TextRange.new at h
      split_ifs at h
      obtain rfl := Option.some.inj h
      have := decodedOffset_le hdecode hstop
      dsimp only
      omega
    · cases h
  · obtain rfl := Option.some.inj h
    have := hrelative (by simpa using hquoted)
    omega

/-- Such a part is inside the scalar, and `u32` has room for it. -/
theorem scalarPart_eq {part : TextRange}
    (h : scalar.range.start + part.stop ≤ scalar.range.stop) (hfits : scalar.range.stop ≤ u32Max) :
    scalarPart scalar part = ⟨scalar.range.start + part.start, scalar.range.start + part.stop,
      Nat.add_le_add_left part.le _⟩ := by
  have hle := part.le
  have hmax : u32Max < 2 ^ 32 := by decide
  have hstart : asU32 (scalar.range.start + part.start) = scalar.range.start + part.start :=
    Nat.mod_eq_of_lt (by omega)
  have hstop : asU32 (scalar.range.start + part.stop) = scalar.range.start + part.stop :=
    Nat.mod_eq_of_lt (by omega)
  unfold scalarPart
  rw [hstart, hstop]
  unfold TextRange.new
  rw [dif_pos (by omega)]
  rfl

/-- Two searches find the same if they agree up to the first element that the second one finds. -/
theorem findSome?_congr {α β : Type} {f g : α → Option β} {xs : List α}
    (h : ∀ before x after, xs = before ++ x :: after → (∀ y ∈ before, g y = none) → f x = g x) :
    xs.findSome? f = xs.findSome? g := by
  induction xs with
  | nil => rfl
  | cons x xs ih =>
    rw [List.findSome?_cons, List.findSome?_cons, h [] x xs rfl fun _ hy =>
      absurd hy List.not_mem_nil]
    cases hx : g x with
    | some found => rfl
    | none =>
      refine ih fun before y after heq hnone => ?_
      refine h (x :: before) y after (by rw [heq, List.cons_append]) ?_
      exact List.forall_mem_cons.mpr ⟨hx, hnone⟩

namespace TemplateCall

variable (call : TemplateCall) {evidence : ConstraintEvidence}

theorem placed {property : HirProperty} (h : property ∈ call.source.properties) :
    Placed call.source.syn.file property := by
  rw [call.syn]
  rw [call.collected] at h
  exact collectNode_placed _ call.document.inOrder h

variable {argument : HirProperty}

theorem callArguments_inside (h : argument ∈ callArguments call.source call.invocation) :
    Inside argument.range call.invocation.range :=
  isInside_iff.mp (List.mem_filter.mp h).2

theorem mem_of_callArguments (h : argument ∈ callArguments call.source call.invocation) :
    argument ∈ call.source.properties := by
  have hranged := List.mem_of_mem_filter (List.mem_of_mem_filter h)
  exact List.dropWhile_subset _ ((List.takeWhile_prefix _).subset (List.mem_of_mem_filter hranged))

theorem source_eq : call.source.syn.file.source = call.document.source := by
  have hparses := call.document.parses
  unfold parse parseWithRevision at hparses
  obtain ⟨parts, -, hfile⟩ := Option.map_eq_some_iff.mp hparses
  rw [call.syn, ← hfile]
  rfl

/-- Texts of the document fit into `u32`. -/
theorem text_fits {range : TextRange} {text : Str}
    (h : call.source.syn.file.text range = some text) : range.stop ≤ u32Max := by
  have hstop : range.stop ≤ byteLen call.source.syn.file.source :=
    (getText_isSome_iff.mp (Option.isSome_of_eq_some h)).2.2.le
  rw [call.source_eq] at hstop
  have := SemanticTokens.lt_of_checked call.document.checked
  have : (2 : Nat) ^ 30 ≤ u32Max := by decide
  omega

/-- The last argument of a name, and what the pieces know of its value. -/
theorem lastArgument_within {mapping : Hir.BindingSource}
    (h : mapping.Within (rootArguments call.source call.invocation).bindings) :
    ∃ argument scalar text, lastArgument call.source call.invocation mapping.parameter =
      some argument ∧ argument.scalar = some scalar ∧ Inside argument.range call.invocation.range ∧
      Inside scalar.range argument.range ∧ call.source.syn.file.text scalar.range = some text ∧
      (scalar.quoted = false → ∀ offset ∈ mapping.offsets, offset ≤ byteLen text) := by
  obtain ⟨value, hvalue, hle⟩ := h
  obtain ⟨-, argument, scalar, hfind, hscalar, rfl⟩ := bindings_foldl_add _ hvalue
  have hmem : argument ∈ callArguments call.source call.invocation :=
    List.mem_reverse.mp (List.mem_of_find?_eq_some hfind)
  have hplaced := call.placed (call.mem_of_callArguments hmem)
  obtain ⟨text, htext, hspelling⟩ := hplaced.spelling scalar hscalar
  refine ⟨argument, scalar, text, hfind, hscalar, call.callArguments_inside hmem,
    hplaced.scalar scalar hscalar, htext,
    fun hquoted offset hoffset => (hle offset hoffset).trans ?_⟩
  have hplain : bindingValue call.source.syn.file scalar = scalar.value := by
    unfold bindingValue
    rw [htext, Option.filter_some, hquoted]
    rfl
  rw [hplain, hspelling hquoted]
  exact byteLen_trim_le text

/-- The exact projection gives the part of the last argument. -/
theorem projectBindingRange_eq {parameter : Str} {scalar : HirScalar} {text : Str}
    {relative : TextRange}
    (hlast : lastArgument call.source call.invocation parameter = some argument)
    (hscalar : argument.scalar = some scalar)
    (htext : call.source.syn.file.text scalar.range = some text)
    (hrelative : scalar.quoted = false → relative.stop ≤ byteLen text) :
    projectBindingRange parameter relative call.source.syn.file
      (callArguments call.source call.invocation) =
      (spelled call.source.syn.file scalar relative).map (scalarPart scalar) := by
  have hpart : projectBindingRange parameter relative call.source.syn.file
      (callArguments call.source call.invocation) =
        (spelled call.source.syn.file scalar relative).bind fun part =>
          (tryU32 (scalar.range.start + part.start)).bind fun start =>
            (tryU32 (scalar.range.start + part.stop)).bind fun stop =>
              TextRange.new start stop := by
    unfold projectBindingRange
    unfold lastArgument at hlast
    rw [hlast]
    unfold spelled
    simp only [Option.bind_eq_bind, Option.bind_some, hscalar]
    split_ifs <;> rfl
  rw [hpart]
  cases hspelled : spelled call.source.syn.file scalar relative with
  | none => rfl
  | some part =>
    have hstop := spelled_le htext hrelative hspelled
    have hfits := call.text_fits htext
    have hle := part.le
    rw [Option.bind_some, Option.map_some, scalarPart_eq hstop hfits,
      tryU32_eq_some_iff.mpr ⟨by omega, rfl⟩, Option.bind_some,
        tryU32_eq_some_iff.mpr ⟨by omega, rfl⟩, Option.bind_some]
    unfold TextRange.new
    rw [dif_pos (Nat.add_le_add_left hle _)]

/-- A part of the spelling of an argument lies in the call. -/
theorem scalarPart_inside {scalar : HirScalar} {text : Str} {relative part : TextRange}
    (hargument : Inside argument.range call.invocation.range)
    (hscalar : Inside scalar.range argument.range)
    (htext : call.source.syn.file.text scalar.range = some text)
    (hrelative : scalar.quoted = false → relative.stop ≤ byteLen text)
    (hspelled : spelled call.source.syn.file scalar relative = some part) :
    Inside (scalarPart scalar part) call.invocation.range := by
  have hstop := spelled_le htext hrelative hspelled
  rw [scalarPart_eq hstop (call.text_fits htext)]
  exact Inside.trans ⟨Nat.le_add_right _ _, hstop⟩ (hscalar.trans hargument)

/-- Where the last argument is the first of its key, the loop over the pieces maps the evidence like
the exact projection, and into the call. -/
theorem bindingTarget_eq {piece : SourcePiece} (hpiece : piece ∈ call.body.rendered.pieces)
    (hnamed : covers piece evidence = true → ∀ mapping ∈ piece.bindingSource,
      namedArgument call.source call.invocation mapping.parameter =
        lastArgument call.source call.invocation mapping.parameter) :
    bindingTarget evidence call.source call.invocation piece =
        lastTarget evidence call.source call.invocation piece ∧
      ∀ target ∈ lastTarget evidence call.source call.invocation piece,
        Inside target call.invocation.range := by
  unfold bindingTarget lastTarget
  cases hcovers : covers piece evidence with
  | false => exact ⟨rfl, fun _ htarget => (nomatch htarget)⟩
  | true =>
    cases hmapping : piece.bindingSource with
    | none => exact ⟨rfl, fun _ htarget => (nomatch htarget)⟩
    | some mapping =>
      obtain ⟨argument, scalar, text, hlast, hscalar, hargument, hinside, htext, hle⟩ :=
        call.lastArgument_within (call.sourced piece hpiece mapping hmapping)
      have hfirst := (hnamed hcovers mapping hmapping).trans hlast
      simp only [Bool.not_true, Bool.false_eq_true, if_false, Option.bind_eq_bind, Option.bind_some,
        hfirst, hscalar]
      cases hstart : mapping.offsets[evidence.range.start - piece.range.start]? with
      | none => exact ⟨rfl, fun _ htarget => (nomatch htarget)⟩
      | some start =>
        cases hstop : mapping.offsets[evidence.range.stop - piece.range.start]? with
        | none => exact ⟨rfl, fun _ htarget => (nomatch htarget)⟩
        | some stop =>
          simp only [Option.bind_some]
          cases hrelative : TextRange.new start stop with
          | none => exact ⟨rfl, fun _ htarget => (nomatch htarget)⟩
          | some relative =>
            have hbound (hquoted : scalar.quoted = false) : relative.stop ≤ byteLen text := by
              unfold TextRange.new at hrelative
              split_ifs at hrelative
              rw [← Option.some.inj hrelative]
              exact hle hquoted stop (List.mem_of_getElem? hstop)
            simp only [Option.bind_some]
            rw [call.projectBindingRange_eq hlast hscalar htext hbound]
            refine ⟨by rw [Option.map_eq_bind]; rfl, fun target htarget => ?_⟩
            obtain ⟨part, hpart, rfl⟩ := Option.map_eq_some_iff.mp htarget
            exact call.scalarPart_inside hargument hinside htext hbound hpart

/-- The exact projection is where the pieces map the evidence in the arguments that were
rendered. -/
theorem findSome?_lastTarget {exact : TextRange}
    (h : projectSourceRange call.body evidence.range call.source call.invocation = some exact) :
    call.body.rendered.pieces.findSome? (lastTarget evidence call.source call.invocation) =
      some exact := by
  unfold projectSourceRange at h
  obtain ⟨⟨parameter, relative⟩, hbinding, hproject⟩ := Option.bind_eq_some_iff.mp h
  unfold bindingRange at hbinding
  split_ifs at hbinding
  obtain ⟨piece, hfind, hbinding⟩ := Option.bind_eq_some_iff.mp hbinding
  obtain ⟨mapping, hmapping, hbinding⟩ := Option.bind_eq_some_iff.mp hbinding
  obtain ⟨hholds, before, after, heq, hbefore⟩ := List.find?_eq_some_iff_append.mp hfind
  simp only [Bool.and_eq_true] at hholds
  -- The pieces before it do not map the evidence.
  have hskipped : before.findSome? (lastTarget evidence call.source call.invocation) = none := by
    rw [List.findSome?_eq_none_iff]
    intro other hother
    have hnot := hbefore other hother
    unfold lastTarget covers
    cases hsource : other.bindingSource with
    | none => split_ifs <;> rfl
    | some source =>
      rw [hsource, Option.isSome_some, Bool.and_true] at hnot
      rw [if_pos hnot]
  have hpiece : lastTarget evidence call.source call.invocation piece = some exact := by
    have hcovers : covers piece evidence = true := by
      unfold covers
      rw [hholds.1.1, hholds.1.2]
      rfl
    split at hbinding
    · rename_i start stop hstart hstop
      obtain ⟨found, hnew, heq⟩ := Option.map_eq_some_iff.mp hbinding
      obtain ⟨rfl, rfl⟩ := Prod.mk.inj heq
      unfold lastTarget
      rw [hcovers, hmapping]
      simp only [Bool.not_true, Bool.false_eq_true, if_false, Option.bind_eq_bind, Option.bind_some,
        hstart, hstop, hnew]
      exact hproject
    · cases hbinding
  rw [heq, List.findSome?_append, hskipped, Option.none_or, List.findSome?_cons, hpiece]

/-- The part that one piece renders alone lies in the call if the argument does. -/
theorem scalarTarget_inside {scalar : HirScalar} (hplaced : Placed call.source.syn.file argument)
    (hscalar : argument.scalar = some scalar)
    (hinside : Inside argument.range call.invocation.range) :
    Inside (scalarTarget call.body evidence call.source argument.key scalar)
      call.invocation.range := by
  have hwhole : Inside scalar.range call.invocation.range :=
    (hplaced.scalar scalar hscalar).trans hinside
  obtain ⟨text, htext, hspelling⟩ := hplaced.spelling scalar hscalar
  unfold scalarTarget
  split
  · exact hwhole
  · rename_i piece hpiece
    split_ifs with hrendered
    · cases hrelative : TextRange.new (evidence.range.start - piece.range.start)
          (evidence.range.stop - piece.range.start) with
      | none => exact hwhole
      | some relative =>
        rw [Option.bind_some]
        cases hpart : spelled call.source.syn.file scalar relative with
        | none => exact hwhole
        | some part =>
          refine call.scalarPart_inside hinside (hplaced.scalar scalar hscalar) htext
            (fun hquoted => ?_) hpart
          -- The piece is as long as the value, and the value is not longer than its spelling.
          have hcovers := List.find?_some hpiece
          unfold covers at hcovers
          simp only [Bool.and_eq_true, decide_eq_true_eq] at hcovers
          obtain ⟨-, -, -, -, hlen⟩ := getText_eq_some_iff.mp hrendered
          have htrim := byteLen_trim_le text
          rw [← hspelling hquoted] at htrim
          unfold TextRange.new at hrelative
          split_ifs at hrelative
          rw [← Option.some.inj hrelative]
          dsimp only
          omega
    · exact hwhole

/-- What is shown where no piece maps the evidence lies in the call if the argument does. -/
theorem displayRange_inside
    (h : ∀ argument ∈ dependentArgument call.body evidence call.source call.invocation,
      Inside argument.range call.invocation.range) :
    Inside (displayRange call.body evidence call.source call.invocation) call.invocation.range := by
  unfold displayRange
  cases hargument : dependentArgument call.body evidence call.source call.invocation with
  | none => exact (call.placed call.called).key
  | some argument =>
    have hinside := h argument hargument
    have hplaced := call.placed (List.mem_of_find?_eq_some hargument)
    dsimp only
    split
    · cases hvalue : argument.valueRange with
      | none => exact hinside
      | some range => exact (hplaced.value range hvalue).trans hinside
    · rename_i scalar hscalar
      exact call.scalarTarget_inside hplaced hscalar hinside

/-- **Template evidence lands in the call it came from**, where the call owns the keys that are
looked up. -/
theorem projectEvidenceRange_lands (h : Owned call.body evidence call.source call.invocation) :
    Lands call.body evidence call.source call.invocation := by
  have hround {before after : List SourcePiece} {piece : SourcePiece}
      (heq : call.body.rendered.pieces = before ++ piece :: after)
      (hnone : ∀ other ∈ before, lastTarget evidence call.source call.invocation other = none) :=
    call.bindingTarget_eq (heq ▸ List.mem_append_right _ List.mem_cons_self)
      (h.named before piece after heq hnone)
  have hsame : call.body.rendered.pieces.findSome?
    (bindingTarget evidence call.source call.invocation) =
      call.body.rendered.pieces.findSome? (lastTarget evidence call.source call.invocation) :=
    findSome?_congr fun before piece after heq hnone => (hround heq hnone).1
  unfold Lands projectEvidenceRange
  rw [hsame]
  constructor
  · cases hfind : call.body.rendered.pieces.findSome?
      (lastTarget evidence call.source call.invocation) with
    | none => exact call.displayRange_inside (h.dependent (List.findSome?_eq_none_iff.mp hfind))
    | some target =>
      obtain ⟨before, piece, after, heq, htarget, hnone⟩ := List.findSome?_eq_some_iff.mp hfind
      exact (hround heq hnone).2 target htarget
  · intro exact hexact
    rw [call.findSome?_lastTarget hexact]
    rfl

end TemplateCall

/-! ### Two calls side by side -/

/-- The effect `t` has the body ` effect = $a$ `. -/
def sideBySideSource : Str := "t = { a = x } t = { a = y }".toList

theorem sideBySide_parses : (SemanticTokens.syntaxOf sideBySideSource).isSome =
    true := by decide +kernel

def sideBySideDocument : ScriptDocument where
  source := sideBySideSource
  checked := by decide +kernel
  parsed := (SemanticTokens.syntaxOf sideBySideSource).get sideBySide_parses
  parses := SemanticTokens.parse_of_syntaxOf (Option.some_get sideBySide_parses).symm

/-- The call of `t` from `start` on, with an argument of one byte. -/
def callAt (start stop : Nat) (h : start ≤ stop) (h' : start ≤ start + 1) : HirProperty where
  key := "t".toList
  keyRange := ⟨start, start + 1, h'⟩
  range := ⟨start, stop, h⟩
  path := ["t".toList]
  valueRange := TextRange.new (start + 4) stop
  scalar := none

/-- The argument `a` from `start` on. -/
def argumentAt (value : Str) (start : Nat) (h : start ≤ start + 1) (h' : start ≤ start + 5)
    (h'' : start + 4 ≤ start + 5) : HirProperty where
  key := "a".toList
  keyRange := ⟨start, start + 1, h⟩
  range := ⟨start, start + 5, h'⟩
  path := ["t".toList, "a".toList]
  valueRange := some ⟨start + 4, start + 5, h''⟩
  scalar := some ⟨value, ⟨start + 4, start + 5, h''⟩, false⟩

def sideBySideProperties : List HirProperty := [
  callAt 0 13 (by decide) (by decide),
  argumentAt "x".toList 6 (by decide) (by decide) (by decide),
  callAt 14 27 (by decide) (by decide),
  argumentAt "y".toList 20 (by decide) (by decide) (by decide)]

theorem sideBySide_collected : sideBySideProperties =
    collectNode sideBySideDocument.parsed.file [] sideBySideDocument.parsed.root := by
  decide +kernel

/-- A document with its properties. -/
def collectedHir (document : ScriptDocument) (properties : List HirProperty) : TokenHir where
  syn := document.parsed
  properties := properties

def sideBySideHir : TokenHir := collectedHir sideBySideDocument sideBySideProperties

def renderedBody (value : Str) : Str := " effect = ".toList ++ value ++ " ".toList

theorem renderedBody_parses {value : Str} (h : value = "x".toList ∨ value = "y".toList) :
    (SemanticTokens.syntaxOf (renderedBody value)).isSome = true := by
  rcases h with rfl | rfl <;> decide +kernel

def bodyPiece (start stop definitionStart definitionStop : Nat) (h : start ≤ stop)
    (h' : definitionStart ≤ definitionStop) : SourcePiece where
  origin := ("scripted_effect".toList, "t".toList)
  range := ⟨start, stop, h⟩
  definitionRange := ⟨definitionStart, definitionStop, h'⟩
  script := false
  parameters := ∅
  bindingName := none
  bindingSource := none
  hole := false
  uncertainText := false
  structuralHole := false

/-- What the body gives for an argument of one byte. -/
def sideBySideBody (value : Str) (h : value = "x".toList ∨ value = "y".toList) :
    TemplateInstance where
  rendered := {
    text := renderedBody value
    pieces := [
      bodyPiece 0 10 5 15 (by decide) (by decide),
      { bodyPiece 10 11 15 18 (by decide) (by decide) with
        parameters := {"a".toList}
        bindingName := some "a".toList
        bindingSource := some ⟨"a".toList, 0, false, false, [0, 1]⟩ },
      bodyPiece 11 12 18 19 (by decide) (by decide)] }
  hir := { syn := (SemanticTokens.syntaxOf (renderedBody value)).get (renderedBody_parses h) }

def firstInvocation : HirProperty := callAt 0 13 (by decide) (by decide)

def secondInvocation : HirProperty := callAt 14 27 (by decide) (by decide)

theorem bindingValue_unquoted (syn : ParsedFile) (h : scalar.quoted = false) :
    bindingValue syn scalar = scalar.value := by
  unfold bindingValue
  rw [h]
  cases syn.text scalar.range <;> rfl

/-- A call with one unquoted argument binds its value. -/
theorem bindings_of_singleton {source : TokenHir} {invocation argument : HirProperty}
    {name : Str} (h : callArguments source invocation = [argument])
    (hscalar : argument.scalar = some scalar)
    (hquoted : scalar.quoted = false) (hname : toAsciiLowercase argument.key = name) :
    (rootArguments source invocation).bindings[name]? = some scalar.value := by
  subst hname
  unfold rootArguments
  rw [h, List.foldl_cons, List.foldl_nil]
  unfold RootArguments.add
  rw [hscalar]
  dsimp only
  rw [Std.ExtTreeMap.getElem?_insert_self, bindingValue_unquoted _ hquoted]

theorem sideBySide_bindings : (rootArguments sideBySideHir firstInvocation).bindings["a".toList]? =
      some "x".toList ∧
    (rootArguments sideBySideHir secondInvocation).bindings["a".toList]? = some "y".toList := by
  have hfirst : callArguments sideBySideHir firstInvocation =
      [argumentAt "x".toList 6 (by decide) (by decide) (by decide)] := by decide +kernel
  have hsecond : callArguments sideBySideHir secondInvocation =
      [argumentAt "y".toList 20 (by decide) (by decide) (by decide)] := by decide +kernel
  exact ⟨bindings_of_singleton hfirst rfl rfl (by decide),
    bindings_of_singleton hsecond rfl rfl (by decide)⟩

theorem sideBySide_sourced {bindings : Bindings} {value : Str}
    (h : value = "x".toList ∨ value = "y".toList) (hvalue : bindings["a".toList]? = some value) :
    Sourced bindings (sideBySideBody value h).rendered.pieces := by
  have hlength : byteLen value = 1 := by
    rcases h with rfl | rfl <;> decide
  intro piece hpiece source hsource
  have hmiddle : source = ⟨"a".toList, 0, false, false, [0, 1]⟩ := by
    rcases List.mem_cons.mp hpiece with rfl | hpiece
    · cases hsource
    · rcases List.mem_cons.mp hpiece with rfl | hpiece
      · exact (Option.some.inj hsource).symm
      · rw [List.mem_singleton.mp hpiece] at hsource
        cases hsource
  rw [hmiddle]
  refine ⟨value, hvalue, fun offset hoffset => ?_⟩
  have hle : ∀ offset ∈ [0, 1], offset ≤ 1 := by decide
  rw [hlength]
  exact hle offset hoffset

/-- A call in a document with the properties. -/
def callIn (document : ScriptDocument) (properties : List HirProperty)
    (h : properties = collectNode document.parsed.file [] document.parsed.root)
    (invocation : HirProperty) (hcalled : invocation ∈ properties) (body : TemplateInstance)
    (hsourced : Sourced (rootArguments (collectedHir document properties) invocation).bindings
      body.rendered.pieces) : TemplateCall where
  document := document
  source := collectedHir document properties
  syn := rfl
  collected := h
  invocation := invocation
  called := hcalled
  body := body
  sourced := hsourced

theorem firstInvocation_mem : firstInvocation ∈ sideBySideProperties := .head _

theorem secondInvocation_mem : secondInvocation ∈ sideBySideProperties :=
  .tail _ (.tail _ (.head _))

def firstCall : TemplateCall :=
  callIn sideBySideDocument sideBySideProperties sideBySide_collected firstInvocation
    firstInvocation_mem (sideBySideBody "x".toList (.inl rfl))
    (sideBySide_sourced _ sideBySide_bindings.1)

def secondCall : TemplateCall :=
  callIn sideBySideDocument sideBySideProperties sideBySide_collected secondInvocation
    secondInvocation_mem (sideBySideBody "y".toList (.inr rfl))
    (sideBySide_sourced _ sideBySide_bindings.2)

/-- The value of the effect in the body is rejected. -/
def valueEvidence : ConstraintEvidence := ⟨.value, ⟨10, 11, by decide⟩, ⟨0, 12, by decide⟩⟩

/-- Evidence of the first call is shown in the first call. -/
theorem firstCall_lands : Lands firstCall.body valueEvidence firstCall.source
    firstCall.invocation := by
  apply firstCall.projectEvidenceRange_lands
  refine ⟨fun before piece after heq _ _ mapping hmapping => ?_, fun _ => ?_⟩
  · have hnames : ∀ piece ∈ firstCall.body.rendered.pieces, ∀ mapping ∈ piece.bindingSource.toList,
        namedArgument firstCall.source firstCall.invocation mapping.parameter =
          lastArgument firstCall.source firstCall.invocation mapping.parameter := by
      decide +kernel
    have hpiece : piece ∈ firstCall.body.rendered.pieces :=
      heq ▸ List.mem_append_right _ List.mem_cons_self
    exact hnames piece hpiece mapping (Option.mem_toList.mpr hmapping)
  · have hdependent : ∀ argument ∈
        (dependentArgument firstCall.body valueEvidence firstCall.source
          firstCall.invocation).toList,
        Inside argument.range firstCall.invocation.range := by
      decide +kernel
    exact fun argument hargument => hdependent argument (Option.mem_toList.mpr hargument)

/-- Evidence of the second call is shown at the argument of the first one. -/
theorem secondCall_shown :
    projectEvidenceRange secondCall.body valueEvidence secondCall.source secondCall.invocation =
        ⟨10, 11, by decide⟩ ∧
      projectSourceRange secondCall.body valueEvidence.range secondCall.source
        secondCall.invocation =
        some ⟨24, 25, by decide⟩ := by
  constructor <;> decide +kernel

/-- Evidence of a call may be shown outside of it. -/
theorem projectEvidenceRange_escapes : ¬∀ (call : TemplateCall) (evidence : ConstraintEvidence),
    Lands call.body evidence call.source call.invocation := by
  intro h
  have hexact := (h secondCall valueEvidence).2 _ secondCall_shown.2
  rw [secondCall_shown.1] at hexact
  exact absurd hexact (by decide)

end ParadoxCode.Ide.Evidence
