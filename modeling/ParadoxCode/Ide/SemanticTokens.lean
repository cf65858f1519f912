import Mathlib.Data.Prod.Lex
import ParadoxCode.Hir.RenderExpanded
import ParadoxCode.Parser.SourceOrder

/-!
# Semantic tokens

`semantic_tokens.rs` of the ide crate: the tokens of the syntax tree of a script document, the
tokens that template consumptions project into it, and the stream of both in a viewport.

Lowering, the workspace lookups and the instances of template bodies are parameters. Nothing is
cancelled, and the cache of the rule keys is left out.
-/

namespace ParadoxCode.Ide.SemanticTokens

open Format (eqIgnoreAsciiCase)
open Hir (ConsumedCall FieldId HirProperty RenderedTemplate bindingRange)
open ParadoxCode.Parser

open StableSort (sortByKey)

/-! ## Tokens and what their query reads -/

/-- Ranges are compared by their starts and then by their ends. -/
instance : LinearOrder TextRange :=
  LinearOrder.lift' (fun range => toLex (range.start, range.stop)) fun a b h => by
    cases a
    cases b
    simpa using h

instance : Std.LawfulEqOrd TextRange where
  eq_of_compare h := compare_eq_iff_eq.mp h

theorem start_mono {a b : TextRange} (h : a ≤ b) : a.start ≤ b.start := by
  have hlex : toLex (a.start, a.stop) ≤ toLex (b.start, b.stop) := h
  rcases Prod.Lex.le_iff.mp hlex with hlt | ⟨heq, -⟩
  · exact Nat.le_of_lt hlt
  · exact Nat.le_of_eq heq

inductive SemanticTokenType where
  | comment
  | string
  | number
  | boolean
  | operator
  | property
  | function
  | keyword
  | type
  | variable
  | parameter
  deriving DecidableEq

structure SemanticToken where
  range : TextRange
  tokenType : SemanticTokenType
  definition : Bool
  deriving DecidableEq

/-- A parsed file whose tree can be walked. -/
structure Syntax where
  file : ParsedFile
  root : CstNode
  walks : file.root = some root

/-- `HirFile`, as far as tokens read it. -/
structure TokenHir where
  syn : Syntax
  properties : List HirProperty := []
  usesIr : Bool := true
  /-- `field_fact_at`: the fields of the fact at a range. -/
  fieldFactAt : TextRange → Option (List FieldId) := fun _ => none
  /-- The kinds and the selection ranges of the definitions. -/
  definitions : List (Str × TextRange) := []
  parameterReferences : List TextRange := []

/-- `TemplateInstance`, as far as tokens read it. -/
structure TemplateInstance where
  rendered : RenderedTemplate
  hir : TokenHir

structure ParsedInput where
  parsed : Syntax
  hir : Option TokenHir

structure AnalysisSnapshot where
  fallbackKeys : List Str := []
  controlFlowKeys : List Str := []
  /-- The exact keys of all schemas. -/
  exactKeys : List Str := []
  /-- `effective_workspace_member_names` of the dynamic definition types. -/
  memberNames : List Str := []
  /-- Whether a field has a control. -/
  control : FieldId → Bool := fun _ => false
  /-- `template_kind` of the key of a field. -/
  templateKind : FieldId → Option Str := fun _ => none
  /-- The body of an invocation: its definition is known, `needs_body_analysis` holds and
  `analyse_body` has an instance. -/
  analyseBody : TokenHir → HirProperty → Str → Option TemplateInstance := fun _ _ _ => none

/-! ## The tokens of a tree -/

/-- `is_parameter_spelling`. -/
def isParameterSpelling (text : Str) : Bool :=
  3 ≤ byteLen text && text.head? == some '$' && text.getLast? == some '$' &&
    !(text.drop 1).dropLast.contains '$'

/-- `is_number_spelling`. -/
def isNumberSpelling (text : Str) : Bool :=
  let digits := if text.head? = some '-' then text.drop 1 else text
  let number (text : Str) : Bool := text ≠ [] && text.all Char.isDigit
  if '.' ∈ digits then
    number (digits.takeWhile (· ≠ '.')) && number ((digits.dropWhile (· ≠ '.')).drop 1)
  else number digits

namespace AnalysisSnapshot

variable (snapshot : AnalysisSnapshot)

/-- `static_semantic_keys`. -/
def staticSemanticKeys : List Str := snapshot.fallbackKeys.map toAsciiLowercase ++
    snapshot.exactKeys

/-- `semantic_keys`. -/
def semanticKeys : List Str := snapshot.staticSemanticKeys ++
    snapshot.memberNames.map toAsciiLowercase

/-- `is_control_flow_key`. -/
def isControlFlowKey (key : Str) : Bool :=
  snapshot.controlFlowKeys.any fun candidate => eqIgnoreAsciiCase candidate key

/-- `classify_identifier`. -/
def classifyIdentifier (text : Str) (isKey : Bool) : SemanticTokenType × Bool :=
  if text.head? = some '"' then if isKey then (.property, false) else (.string, false)
  else if text.head? = some '@' then (.variable, isKey)
  else if isParameterSpelling text then (.parameter, false)
  else if isKey then
    if snapshot.isControlFlowKey text then (.keyword, false)
    else if snapshot.semanticKeys.contains (toAsciiLowercase text) then (.function, false)
    else (.property, false)
  else if isNumberSpelling text then (.number, false)
  else if ["yes", "no", "true", "false"].any fun word => eqIgnoreAsciiCase text word.toList then
    (.boolean, false)
  else (.string, false)

end AnalysisSnapshot

/-- No byte of the range is requested. -/
def outside (viewport : Option TextRange) (range : TextRange) : Bool :=
  viewport.any fun viewport => decide (range.stop ≤ viewport.start) ||
    decide (viewport.stop ≤ range.start)

/-- `push_token_if_visible`. -/
def pushTokenIfVisible (viewport : Option TextRange) (range : TextRange)
    (tokenType : SemanticTokenType) (definition : Bool) : List SemanticToken :=
  if viewport.all fun viewport => decide (viewport.start < range.stop) &&
    decide (range.start < viewport.stop)
  then [⟨range, tokenType, definition⟩]
  else []

section

variable (snapshot : AnalysisSnapshot) (syn : ParsedFile) (viewport : Option TextRange)

/-- The token of a scalar. -/
def pushIdentifier (range : TextRange) (isKey : Bool) : List SemanticToken :=
  match syn.text range with
  | none => []
  | some text =>
    let (tokenType, definition) := snapshot.classifyIdentifier text isKey
    pushTokenIfVisible viewport range tokenType definition

mutual

def collectTokens : CstNode → List SemanticToken
  | .mk kind range children =>
    if outside viewport range then []
    else
      match kind with
      | .comment => pushTokenIfVisible viewport range .comment false
      | .key => pushIdentifier snapshot syn viewport range true
      | .operator => pushTokenIfVisible viewport range .operator false
      | .headerBlock => collectHeader children
      | .parameterCondition => collectCondition children
      | .bareValue | .quotedString => pushIdentifier snapshot syn viewport range false
      | .property | .value | .block | .parameterBlock | .document | .error =>
          collectChildren children
      | .bom | .localisationDocument | .languageHeader | .localisationEntry | .localisationKey
      | .version | .localisationString | .unquotedValue => []

/-- The header is the leading scalar child; its block content follows. -/
def collectHeader : List CstNode → List SemanticToken
  | [] => []
  | header :: rest =>
    (if header.kind = .bareValue then pushTokenIfVisible viewport header.range .type false
      else collectTokens header) ++ collectChildren rest

/-- The condition name is a parameter selector. -/
def collectCondition : List CstNode → List SemanticToken
  | [] => []
  | child :: rest =>
    (if child.kind = .bareValue then pushTokenIfVisible viewport child.range .parameter false
      else collectTokens child) ++ collectCondition rest

def collectChildren : List CstNode → List SemanticToken
  | [] => []
  | child :: rest => collectTokens child ++ collectChildren rest

end

end

/-- What the field facts and the definitions of the document make of a token. -/
def retype (snapshot : AnalysisSnapshot) (hir : TokenHir) (token : SemanticToken) : SemanticToken :=
  let tokenType :=
    if token.tokenType = .variable ∨ token.tokenType = .parameter then token.tokenType
    else
      match hir.fieldFactAt token.range with
      | none => token.tokenType
      | some fields =>
        if fields.any snapshot.control then .keyword else if fields ≠ [] then
          .function else .property
  { token with
    tokenType := tokenType
    definition := token.definition ||
      hir.definitions.any fun definition => decide (definition.2 = token.range) }

/-- The tokens of the syntax tree in a viewport. -/
def treeTokens (snapshot : AnalysisSnapshot) (input : ParsedInput) (viewport : Option TextRange) :
    List SemanticToken :=
  let tokens := collectTokens snapshot input.parsed.file viewport input.parsed.root
  match input.hir.filter TokenHir.usesIr with
  | none => tokens
  | some hir => tokens.map (retype snapshot hir)

/-! ## The tokens of template consumptions -/

/-- `properties_in_range`, over properties in the order of their starts. -/
def propertiesInRange (properties : List HirProperty) (range : TextRange) : List HirProperty :=
  ((properties.dropWhile fun property => decide (property.range.start < range.start)).takeWhile
    fun property => decide (property.range.start ≤ range.stop)).filter
      fun property => decide (property.range.stop ≤ range.stop)

/-- The arguments of an invocation. -/
def arguments (source : TokenHir) (invocation : HirProperty) : List HirProperty :=
  (propertiesInRange source.properties invocation.range).filter fun argument =>
    argument.path.length == invocation.path.length + 1 && invocation.path.isPrefixOf argument.path

/-- `project_binding_range`. -/
def projectBindingRange (parameter : Str) (relative : TextRange) (source : ParsedFile)
    (arguments : List HirProperty) : Option TextRange := do
  let argument ← arguments.reverse.find? fun argument =>
    eqIgnoreAsciiCase argument.key parameter && argument.scalar.isSome
  let scalar ← argument.scalar
  let relative ←
    if scalar.quoted then
      ((source.text scalar.range).bind decodeQuotedScript).bind fun decoded =>
        decoded.2.decodedRange relative
    else some relative
  let start ← tryU32 (scalar.range.start + relative.start)
  let stop ← tryU32 (scalar.range.start + relative.stop)
  TextRange.new start stop

/-- `project_source_range` of `ir_template.rs`. -/
def projectSourceRange (body : TemplateInstance) (range : TextRange) (source : TokenHir)
    (invocation : HirProperty) : Option TextRange :=
  (bindingRange body.rendered.toRenderedText range).bind fun (parameter, relative) =>
    projectBindingRange parameter relative source.syn.file
      ((arguments source invocation).filter fun argument =>
        decide (invocation.range.start ≤ argument.range.start) &&
          decide (argument.range.stop ≤ invocation.range.stop))

/-- `for_each_consumption`: the invocations of the document with the instances of their bodies. -/
def consumptions (snapshot : AnalysisSnapshot) (source : TokenHir) :
    List (HirProperty × TemplateInstance) :=
  source.properties.filterMap fun invocation => do
    let fields ← source.fieldFactAt invocation.keyRange
    let kind ← fields.findSome? snapshot.templateKind
    if source.parameterReferences.any (fun reference =>
          decide (invocation.range.start ≤ reference.start) &&
            decide (reference.stop ≤ invocation.range.stop)) ||
        source.definitions.any (fun definition =>
          eqIgnoreAsciiCase definition.1 kind && decide (definition.2 = invocation.keyRange)) then
            none
    else (snapshot.analyseBody source invocation kind).map fun body => (invocation, body)

/-- The token of a call that depends on an argument. -/
def callToken (viewport : Option TextRange) (source : TokenHir) (invocation : HirProperty)
    (call : ConsumedCall) : Option SemanticToken := do
  let (parameter, relative) ← call.source
  let mapped ← projectBindingRange parameter relative source.syn.file (arguments source invocation)
  if outside viewport mapped then none else some ⟨mapped, .function, false⟩

/-- Some argument is consumed as script around the range. -/
def inScript (body : TemplateInstance) (range : TextRange) : Bool :=
  body.rendered.pieces.any fun piece =>
    (piece.script || piece.bindingSource.any Hir.BindingSource.script) &&
      decide (piece.range.start ≤ range.start) && decide (range.stop ≤ piece.range.stop)

/-- What the field facts and the definitions of a body make of a token of its text. -/
def retypeNested (snapshot : AnalysisSnapshot) (body : TemplateInstance) (token : SemanticToken) :
    SemanticToken :=
  { token with
    tokenType :=
      match body.hir.fieldFactAt token.range with
      | none => token.tokenType
      | some fields =>
        let controls := fields.countP snapshot.control
        if fields ≠ [] ∧ controls = fields.length then .keyword
        else if 0 < controls ∨ fields = [] then .property
        else .function
    definition := body.hir.definitions.any fun definition => decide (definition.2 = token.range) }

/-- A token of the text of a body, where it stands in the document. -/
def nestedToken (snapshot : AnalysisSnapshot) (viewport : Option TextRange) (source : TokenHir)
    (invocation : HirProperty) (body : TemplateInstance) (token : SemanticToken) :
    Option SemanticToken :=
  if !inScript body token.range then none
  else
    (projectSourceRange body token.range source invocation).bind fun mapped =>
      if outside viewport mapped then none
      else some { retypeNested snapshot body token with range := mapped }

/-- What one consumption adds to `projected`, in order. -/
def projections (snapshot : AnalysisSnapshot) (viewport : Option TextRange) (source : TokenHir)
    (consumption : HirProperty × TemplateInstance) : List SemanticToken :=
  let (invocation, body) := consumption
  body.rendered.calls.filterMap (callToken viewport source invocation) ++
    (collectTokens snapshot body.hir.syn.file none body.hir.syn.root).filterMap
      (nestedToken snapshot viewport source invocation body)

/-- `projected.entry(mapped).or_default().push(token)`. -/
def push (projected : Std.ExtTreeMap TextRange (List SemanticToken)) (token : SemanticToken) :
    Std.ExtTreeMap TextRange (List SemanticToken) :=
  projected.insert token.range (projected[token.range]?.getD [] ++ [token])

/-- The token that all contexts of a range agree on. -/
def agreed : List SemanticToken → Option SemanticToken
  | [] => none
  | first :: choices => if choices.all (· = first) then some first else none

/-- What the consumptions of a document push, in order. -/
def choices (snapshot : AnalysisSnapshot) (input : ParsedInput) (viewport : Option TextRange) :
    List SemanticToken :=
  input.hir.elim [] fun source =>
    (consumptions snapshot source).flatMap (projections snapshot viewport source)

/-- The tokens that template consumptions add to a viewport. -/
def additions (snapshot : AnalysisSnapshot) (input : ParsedInput) (viewport : Option TextRange) :
    List SemanticToken :=
  ((choices snapshot input viewport).foldl push ∅).toList.filterMap fun entry => agreed entry.2

/-! ## The stream -/

/-- The fragments of a string token from `start` on, around the additions inside it. -/
def fragments (token : SemanticToken) : List SemanticToken → Nat → List SemanticToken
  | [], start =>
    if h : start < token.range.stop then [{ token with range := ⟨start, token.range.stop, h.le⟩ }]
      else []
  | addition :: additions, start =>
    if addition.range.start < token.range.start ∨ token.range.stop < addition.range.stop then
      fragments token additions start
    else
      (if h : start < addition.range.start then
          [{ token with range := ⟨start, addition.range.start, h.le⟩ }]
        else []) ++ fragments token additions (max start addition.range.stop)

/-- What is left of a token of the tree. -/
def kept (additions : List SemanticToken) (token : SemanticToken) : List SemanticToken :=
  if token.tokenType ≠ .string then [token] else fragments token additions token.range.start

def mergeAdditions (tokens additions : List SemanticToken) : List SemanticToken :=
  if additions = [] then tokens
  else (sortByKey SemanticToken.range (tokens.flatMap (kept additions) ++ additions)).destutter
    (· ≠ ·)

/-- `semantic_tokens_in_range_with_cancellation`, behind `input_for_document`. -/
def semanticTokensInRange (snapshot : AnalysisSnapshot) (input : Option ParsedInput)
    (viewport : Option TextRange) : List SemanticToken :=
  match input with
  | none => []
  | some input =>
    if input.parsed.file.format ≠ .script then []
    else mergeAdditions (treeTokens snapshot input viewport) (additions snapshot input viewport)

/-! ## The tree tokens follow one another -/

abbrev startOf (token : SemanticToken) : Nat := token.range.start

abbrev stopOf (token : SemanticToken) : Nat := token.range.stop

/-- The byte stands in the token. -/
abbrev Covers (token : SemanticToken) (position : Nat) : Prop :=
  Spans.Covers startOf stopOf token position

/-- No byte stands in both tokens. -/
abbrev Apart (a b : SemanticToken) : Prop := Spans.Apart startOf stopOf a b

abbrev Inside (a b : SemanticToken) : Prop := Spans.Inside startOf stopOf a b

abbrev Follow (tokens : List SemanticToken) (start stop : Nat) : Prop :=
  Spans.Follow startOf stopOf tokens start stop

theorem push_eq (viewport : Option TextRange) (range : TextRange) (tokenType : SemanticTokenType)
    (definition : Bool) :
    pushTokenIfVisible viewport range tokenType definition =
      if outside viewport range then [] else [⟨range, tokenType, definition⟩] := by
  unfold pushTokenIfVisible outside
  cases viewport with
  | none => rfl
  | some viewport =>
    simp only [Option.all_some, Option.any_some, Bool.and_eq_true, Bool.or_eq_true,
      decide_eq_true_eq]
    split_ifs <;> first | rfl | omega

section

variable (snapshot : AnalysisSnapshot) (syn : ParsedFile) (viewport : Option TextRange)

/-- The tokens of one place, all of them and those of a viewport. -/
structure Windowed (all visible : List SemanticToken) (start stop : Nat) : Prop where
  follow : Follow all start stop
  visible : visible = all.filter fun token => !outside viewport token.range

variable {viewport}

theorem Windowed.append {all visible all' visible' : List SemanticToken} {start middle stop : Nat}
    (h : Windowed viewport all visible start middle)
    (h' : Windowed viewport all' visible' middle stop) :
    Windowed viewport (all ++ all') (visible ++ visible') start stop :=
  ⟨h.follow.append h'.follow, by rw [h.visible, h'.visible, List.filter_append]⟩

theorem Windowed.widen {all visible : List SemanticToken} {start stop start' : Nat}
    (h : Windowed viewport all visible start stop) (hstart : start' ≤ start) :
    Windowed viewport all visible start' stop :=
  ⟨h.follow.widen hstart le_rfl, h.visible⟩

theorem windowed_nil {start stop : Nat} (h : start ≤ stop) :
    Windowed viewport [] [] start stop := ⟨h, rfl⟩

theorem windowed_push (range : TextRange) (tokenType : SemanticTokenType) (definition : Bool) :
    Windowed viewport (pushTokenIfVisible none range tokenType definition)
      (pushTokenIfVisible viewport range tokenType definition) range.start range.stop := by
  constructor
  · exact ⟨le_rfl, range.le, le_rfl⟩
  · rw [push_eq, push_eq]
    cases h : outside viewport range with
    | true => exact (List.filter_eq_nil_iff.mpr fun token ht => by
        rw [List.mem_singleton.mp ht, h]
        exact Bool.false_ne_true).symm
    | false => exact (List.filter_eq_self.mpr fun token ht => by
        rw [List.mem_singleton.mp ht, h]
        rfl).symm

theorem windowed_identifier (range : TextRange) (isKey : Bool) :
    Windowed viewport (pushIdentifier snapshot syn none range isKey)
      (pushIdentifier snapshot syn viewport range isKey) range.start range.stop := by
  unfold pushIdentifier
  cases syn.text range with
  | none => exact windowed_nil range.le
  | some text => exact windowed_push _ _ _

/-- What stands in a range outside the viewport is outside it. -/
theorem Windowed.skip {all visible : List SemanticToken} {range : TextRange}
    (h : Windowed viewport all visible range.start range.stop) :
    Windowed viewport all (if outside viewport range then [] else visible) range.start
      range.stop := by
  refine ⟨h.follow, ?_⟩
  split_ifs with houtside
  · refine (List.filter_eq_nil_iff.mpr fun token ht => ?_).symm
    have hbetween : range.start ≤ token.range.start ∧ token.range.stop ≤ range.stop :=
      h.follow.mem ht
    unfold outside at houtside ⊢
    cases viewport with
    | none => cases houtside
    | some viewport =>
      simp only [Option.any_some, Bool.or_eq_true, decide_eq_true_eq, Bool.not_eq_true',
        Bool.or_eq_false_iff, decide_eq_false_iff_not] at houtside ⊢
      omega
  · exact h.visible

mutual

theorem collectTokens_windowed (node : CstNode) (h : node.InOrder) :
    Windowed viewport (collectTokens snapshot syn none node)
      (collectTokens snapshot syn viewport node)
      node.range.start node.range.stop := by
  match node with
  | .mk kind range children =>
    rw [CstNode.inOrder_mk] at h
    simp only [collectTokens]
    refine Windowed.skip ?_
    have hnone : outside none range = false := rfl
    rw [hnone, if_neg Bool.false_ne_true]
    cases kind with
    | comment | operator => exact windowed_push _ _ _
    | key | bareValue | quotedString => exact windowed_identifier snapshot syn _ _
    | headerBlock => exact collectHeader_windowed children _ _ h
    | parameterCondition => exact collectCondition_windowed children _ _ h
    | property | value | block | parameterBlock | document | error =>
      exact collectChildren_windowed children _ _ h
    | bom | localisationDocument | languageHeader | localisationEntry | localisationKey | version
    | localisationString | unquotedValue => exact windowed_nil range.le

theorem collectHeader_windowed (nodes : List CstNode) (start stop : Nat)
    (h : CstNode.AllInOrder nodes start stop) :
    Windowed viewport (collectHeader snapshot syn none nodes)
      (collectHeader snapshot syn viewport nodes)
      start stop := by
  match nodes with
  | [] =>
    rw [CstNode.AllInOrder] at h
    rw [collectHeader, collectHeader]
    exact windowed_nil h
  | header :: rest =>
    rw [CstNode.AllInOrder] at h
    rw [collectHeader, collectHeader]
    refine Windowed.append (Windowed.widen ?_ h.1) (collectChildren_windowed rest _ _ h.2.2)
    split_ifs
    · exact windowed_push _ _ _
    · exact collectTokens_windowed header h.2.1

theorem collectCondition_windowed (nodes : List CstNode) (start stop : Nat)
    (h : CstNode.AllInOrder nodes start stop) :
    Windowed viewport (collectCondition snapshot syn none nodes)
      (collectCondition snapshot syn viewport nodes)
      start stop := by
  match nodes with
  | [] =>
    rw [CstNode.AllInOrder] at h
    rw [collectCondition, collectCondition]
    exact windowed_nil h
  | child :: rest =>
    rw [CstNode.AllInOrder] at h
    rw [collectCondition, collectCondition]
    refine Windowed.append (Windowed.widen ?_ h.1) (collectCondition_windowed rest _ _ h.2.2)
    split_ifs
    · exact windowed_push _ _ _
    · exact collectTokens_windowed child h.2.1

theorem collectChildren_windowed (nodes : List CstNode) (start stop : Nat)
    (h : CstNode.AllInOrder nodes start stop) :
    Windowed viewport (collectChildren snapshot syn none nodes)
      (collectChildren snapshot syn viewport nodes)
      start stop := by
  match nodes with
  | [] =>
    rw [CstNode.AllInOrder] at h
    rw [collectChildren, collectChildren]
    exact windowed_nil h
  | child :: rest =>
    rw [CstNode.AllInOrder] at h
    rw [collectChildren, collectChildren]
    exact (collectTokens_windowed child h.2.1).widen h.1 |>.append
      (collectChildren_windowed rest _ _ h.2.2)

end

end

/-- The tokens of the tree follow one another, and a viewport has those that reach into it. -/
theorem treeTokens_windowed (snapshot : AnalysisSnapshot) (input : ParsedInput)
    (h : input.parsed.root.InOrder) (viewport : Option TextRange) :
    Windowed viewport (treeTokens snapshot input none) (treeTokens snapshot input viewport)
      input.parsed.root.range.start input.parsed.root.range.stop := by
  have hcollected : Windowed viewport _ _ _ _ := collectTokens_windowed snapshot
    input.parsed.file _ h
  unfold treeTokens
  dsimp only
  cases input.hir.filter TokenHir.usesIr with
  | none => exact hcollected
  | some hir =>
    refine ⟨hcollected.follow.map (fun _ => rfl) (fun _ => rfl), ?_⟩
    rw [hcollected.visible, List.filter_map]
    rfl

/-! ## Cutting string tokens -/

section

variable {token : SemanticToken} {added : List SemanticToken} {start : Nat}

theorem mem_gap {start stop : Nat} {fragment : SemanticToken} :
    (fragment ∈ if h : start < stop then [{ token with range := ⟨start, stop, h.le⟩ }] else []) ↔
      ∃ h : start < stop, fragment = { token with range := ⟨start, stop, h.le⟩ } := by
  split_ifs with h
  · simp [h]
  · simp [h]

theorem gap_follow {start stop : Nat} (h : start ≤ stop) :
    Follow (if h : start < stop then [{ token with range := ⟨start, stop, h.le⟩ }] else [])
      start stop := by
  split_ifs
  · exact ⟨le_rfl, h, le_rfl⟩
  · exact h

/-- The fragments follow one another up to the end of the token. -/
theorem fragments_follow (hstart : token.range.start ≤ start) (hstop : start ≤ token.range.stop) :
    Follow (fragments token added start) start token.range.stop := by
  induction added generalizing start with
  | nil => exact gap_follow hstop
  | cons addition added ih =>
    rw [fragments]
    by_cases hinside : addition.range.start < token.range.start ∨
      token.range.stop < addition.range.stop
    · rw [if_pos hinside]
      exact ih hstart hstop
    · rw [if_neg hinside]
      have hle := addition.range.le
      have hrest : Follow (fragments token added (max start addition.range.stop)) _ _ :=
        ih (by omega) (by omega)
      by_cases hgap : start ≤ addition.range.start
      · exact (gap_follow hgap).append (hrest.widen (by omega) le_rfl)
      · rw [dif_neg (by omega), List.nil_append]
        exact hrest.widen (by omega) le_rfl

theorem fragments_tokenType {fragment : SemanticToken}
    (h : fragment ∈ fragments token added start) : fragment.tokenType = token.tokenType := by
  induction added generalizing start with
  | nil =>
    rw [fragments, mem_gap] at h
    obtain ⟨_, rfl⟩ := h
    rfl
  | cons addition added ih =>
    rw [fragments] at h
    by_cases hinside : addition.range.start < token.range.start ∨
      token.range.stop < addition.range.stop
    · rw [if_pos hinside] at h
      exact ih h
    · rw [if_neg hinside] at h
      rcases List.mem_append.mp h with h | h
      · obtain ⟨_, rfl⟩ := mem_gap.mp h
        rfl
      · exact ih h

/-- The fragments cover what the additions inside the token leave. -/
theorem fragments_covers (hsorted : added.Pairwise fun a b => a.range.start ≤ b.range.start)
    (hstart : token.range.start ≤ start) {position : Nat} :
    (∃ fragment ∈ fragments token added start, Covers fragment position) ↔
      start ≤ position ∧ position < token.range.stop ∧
        ∀ addition ∈ added, Inside addition token → ¬Covers addition position := by
  induction added generalizing start with
  | nil =>
    rw [fragments]
    simp only [mem_gap]
    constructor
    · rintro ⟨_, ⟨_, rfl⟩, hcovers⟩
      exact ⟨hcovers.1, hcovers.2, by simp⟩
    · rintro ⟨hle, hlt, -⟩
      exact ⟨_, ⟨hle.trans_lt hlt, rfl⟩, hle, hlt⟩
  | cons addition added ih =>
    obtain ⟨hfirst, hrest⟩ := List.pairwise_cons.mp hsorted
    rw [fragments]
    by_cases hcase : addition.range.start < token.range.start ∨
      token.range.stop < addition.range.stop
    · rw [if_pos hcase]
      have hout : ¬Inside addition token := by
        rintro ⟨h₁, h₂⟩
        simp only [startOf, stopOf] at h₁ h₂
        omega
      rw [ih hrest hstart]
      simp [hout]
    · rw [if_neg hcase]
      have hin : Inside addition token :=
        ⟨by simp only [startOf]; omega, by simp only [stopOf]; omega⟩
      have hlater : (∃ fragment ∈ fragments token added (max start addition.range.stop),
          Covers fragment position) ↔ _ := ih hrest (by omega)
      simp only [List.mem_append, or_and_right, exists_or, hlater, List.forall_mem_cons, mem_gap]
      constructor
      · rintro (⟨_, ⟨_, rfl⟩, hcovers⟩ | ⟨hle, hlt, hnone⟩)
        · -- in the gap before the addition no later addition has started either
          have hposition : start ≤ position ∧ position < addition.range.start := hcovers
          refine ⟨hposition.1, ?_, fun _ hc => ?_, fun later hmem _ hc => ?_⟩
          · have := addition.range.le
            omega
          · exact absurd hc.1 (by simp only [startOf]; omega)
          · have := hfirst later hmem
            exact absurd hc.1 (by simp only [startOf]; omega)
        · exact ⟨by omega, hlt, fun _ hc => absurd hc.2 (by simp only [stopOf]; omega), hnone⟩
      · rintro ⟨hle, hlt, hfree, hnone⟩
        have hnot := hfree hin
        by_cases hgap : position < addition.range.start
        · exact .inl ⟨_, ⟨by omega, rfl⟩, hle, hgap⟩
        · refine .inr ⟨?_, hlt, hnone⟩
          by_contra hbefore
          exact hnot ⟨by simp only [startOf]; omega, by simp only [stopOf]; omega⟩

end

/-! ## Projected tokens -/

theorem callToken_eq (viewport : Option TextRange) (source : TokenHir) (invocation : HirProperty)
    (call : ConsumedCall) :
    callToken viewport source invocation call =
      (callToken none source invocation call).filter fun token =>
        !outside viewport token.range := by
  unfold callToken
  cases call.source with
  | none => rfl
  | some found =>
    dsimp only [Option.bind_eq_bind, Option.bind_some]
    cases projectBindingRange found.1 found.2 source.syn.file (arguments source invocation) with
    | none => rfl
    | some mapped =>
      have hnone : outside none mapped = false := rfl
      dsimp only [Option.bind_some]
      rw [hnone, if_neg Bool.false_ne_true, Option.filter_some]
      cases outside viewport mapped <;> rfl

theorem nestedToken_eq (snapshot : AnalysisSnapshot) (viewport : Option TextRange)
    (source : TokenHir)
    (invocation : HirProperty) (body : TemplateInstance) (token : SemanticToken) :
    nestedToken snapshot viewport source invocation body token =
      (nestedToken snapshot none source invocation body token).filter fun token =>
        !outside viewport token.range := by
  unfold nestedToken
  split_ifs
  · rfl
  · cases projectSourceRange body token.range source invocation with
    | none => rfl
    | some mapped =>
      have hnone : outside none mapped = false := rfl
      dsimp only [Option.bind_some]
      rw [hnone, if_neg Bool.false_ne_true, Option.filter_some]
      cases outside viewport mapped <;> rfl

/-- A viewport has the choices that reach into it. -/
theorem choices_eq (snapshot : AnalysisSnapshot) (input : ParsedInput)
    (viewport : Option TextRange) :
    choices snapshot input viewport =
      (choices snapshot input none).filter fun token => !outside viewport token.range := by
  have hone (source : TokenHir) (consumption : HirProperty × TemplateInstance) :
      projections snapshot viewport source consumption =
        (projections snapshot none source consumption).filter fun token =>
          !outside viewport token.range := by
    unfold projections
    rw [List.filter_append, List.filter_filterMap, List.filter_filterMap]
    simp only [← callToken_eq, ← nestedToken_eq]
  unfold choices
  cases input.hir with
  | none => rfl
  | some source =>
    dsimp only [Option.elim_some]
    rw [List.filter_flatMap]
    exact congrArg (List.flatMap · (consumptions snapshot source)) (funext (hone source))

/-- The choices of a range. -/
theorem getElem?_foldl_push (tokens : List SemanticToken) (range : TextRange) :
    ∀ projected : Std.ExtTreeMap TextRange (List SemanticToken),
      (tokens.foldl push projected)[range]?.getD [] =
        projected[range]?.getD [] ++ tokens.filter fun token => token.range = range := by
  induction tokens with
  | nil => exact fun projected => (List.append_nil _).symm
  | cons token tokens ih =>
    intro projected
    rw [List.foldl_cons, ih, push, Std.ExtTreeMap.getElem?_insert, List.filter_cons]
    by_cases hrange : token.range = range
    · subst hrange
      simp
    · have hcompare : compare token.range range ≠ .eq := fun h => hrange (compare_eq_iff_eq.mp h)
      simp [hrange, hcompare]

theorem agreed_mem {tokens : List SemanticToken} {token : SemanticToken}
    (h : agreed tokens = some token) : token ∈ tokens := by
  cases tokens with
  | nil => cases h
  | cons first rest =>
    rw [agreed] at h
    split_ifs at h
    rw [← Option.some.inj h]
    exact List.mem_cons_self

theorem mem_additions {snapshot : AnalysisSnapshot} {input : ParsedInput}
    {viewport : Option TextRange} {token : SemanticToken} :
    token ∈ additions snapshot input viewport ↔
      agreed ((choices snapshot input viewport).filter fun choice => choice.range = token.range) =
        some token := by
  have hlookup := getElem?_foldl_push (choices snapshot input viewport)
  rw [additions, List.mem_filterMap]
  constructor
  · rintro ⟨⟨range, list⟩, hentry, hagreed⟩
    have hlist := hlookup range ∅
    rw [Std.ExtTreeMap.mem_toList_iff_getElem?_eq_some.mp hentry,
      Std.ExtTreeMap.getElem?_empty] at hlist
    obtain rfl : list = _ := hlist
    have hrange := (List.mem_filter.mp (agreed_mem hagreed)).2
    obtain rfl := of_decide_eq_true hrange
    exact hagreed
  · intro hagreed
    have hlist := hlookup token.range ∅
    rw [Std.ExtTreeMap.getElem?_empty, Option.getD_none, List.nil_append] at hlist
    cases hentry : ((choices snapshot input viewport).foldl push ∅)[token.range]? with
    | none =>
      rw [hentry, Option.getD_none] at hlist
      rw [← hlist] at hagreed
      cases hagreed
    | some list =>
      rw [hentry, Option.getD_some] at hlist
      exact ⟨(token.range, list), Std.ExtTreeMap.mem_toList_iff_getElem?_eq_some.mpr hentry,
        hlist ▸ hagreed⟩

/-- A viewport has the additions that reach into it. -/
theorem mem_additions_viewport {snapshot : AnalysisSnapshot} {input : ParsedInput}
    {viewport : Option TextRange} {token : SemanticToken} :
    token ∈ additions snapshot input viewport ↔
      token ∈ additions snapshot input none ∧ outside viewport token.range = false := by
  rw [mem_additions, mem_additions, choices_eq, List.filter_filter]
  cases houtside : outside viewport token.range with
  | true =>
    have hnothing : ((choices snapshot input none).filter fun choice =>
        decide (choice.range = token.range) && !outside viewport choice.range) = [] := by
      refine List.filter_eq_nil_iff.mpr fun choice _ => ?_
      by_cases hrange : choice.range = token.range
      · rw [hrange, houtside]
        simp
      · simp [hrange]
    rw [hnothing]
    exact iff_of_false (fun h => nomatch h) fun h => nomatch h.2
  | false =>
    have hsame : ((choices snapshot input none).filter fun choice =>
        decide (choice.range = token.range) && !outside viewport choice.range) =
        (choices snapshot input none).filter fun choice => decide (choice.range = token.range) := by
      refine List.filter_congr fun choice _ => ?_
      by_cases hrange : choice.range = token.range
      · rw [hrange, houtside]
        simp
      · simp [hrange]
    rw [hsame]
    exact ⟨fun h => ⟨h, rfl⟩, fun h => h.1⟩

/-- The additions are in the order of their ranges. -/
theorem additions_sorted (snapshot : AnalysisSnapshot) (input : ParsedInput)
    (viewport : Option TextRange) :
    (additions snapshot input viewport).Pairwise fun a b => a.range.start ≤ b.range.start := by
  have hkey (entry : TextRange × List SemanticToken)
      (hentry : entry ∈ ((choices snapshot input viewport).foldl push ∅).toList)
        (token : SemanticToken)
      (htoken : agreed entry.2 = some token) : token.range = entry.1 := by
    have hlist := getElem?_foldl_push (choices snapshot input viewport) entry.1 ∅
    rw [Std.ExtTreeMap.mem_toList_iff_getElem?_eq_some.mp hentry, Std.ExtTreeMap.getElem?_empty,
      Option.getD_some, Option.getD_none, List.nil_append] at hlist
    have hmem : token ∈ (choices snapshot input viewport).filter fun token =>
      token.range = entry.1 :=
      hlist ▸ agreed_mem htoken
    exact of_decide_eq_true (List.mem_filter.mp hmem).2
  rw [additions, List.pairwise_filterMap]
  refine (Std.ExtTreeMap.ordered_keys_toList).imp_of_mem fun {e e'} he he' hlt a ha b hb => ?_
  rw [hkey e he a ha, hkey e' he' b hb]
  exact (start_mono (compare_lt_iff_lt.mp hlt).le)

/-! ## The stream is valid exactly when the additions fit -/

/-- The projected tokens fit into the tokens of the tree. -/
structure FitsInto (tree added : List SemanticToken) : Prop where
  apart : ∀ a ∈ added, ∀ b ∈ added, a ≠ b → Apart a b
  tree : ∀ token ∈ tree, ∀ a ∈ added,
    Apart token a ∨ token.tokenType = .string ∧ Inside a token ∨ token = a

section

variable {tree added : List SemanticToken} {start stop : Nat}

theorem kept_follow (h : Follow tree start stop) : Follow (tree.flatMap (kept added))
    start stop := by
  refine h.flatMap fun token _ => ?_
  unfold kept
  split_ifs
  · exact ⟨le_rfl, token.range.le, le_rfl⟩
  · exact fragments_follow le_rfl token.range.le

/-- What a token of the tree still covers. -/
theorem kept_covers (hsorted : added.Pairwise fun a b => a.range.start ≤ b.range.start)
    {token : SemanticToken} {position : Nat} :
    (∃ left ∈ kept added token, Covers left position) ↔
      Covers token position ∧
        (token.tokenType = .string → ∀ a ∈ added, Inside a token → ¬Covers a position) := by
  unfold kept
  split_ifs with hstring
  · simp only [List.mem_singleton, exists_eq_left]
    exact ⟨fun h => ⟨h, fun hs => absurd hs hstring⟩, fun h => h.1⟩
  · rw [fragments_covers hsorted le_rfl, ← and_assoc]
    refine and_congr Iff.rfl ⟨fun h _ => h, fun h => h (not_not.mp hstring)⟩

theorem kept_tokenType {token left : SemanticToken} (h : left ∈ kept added token) :
    left.tokenType = token.tokenType := by
  unfold kept at h
  split_ifs at h
  · rw [List.mem_singleton.mp h]
  · exact fragments_tokenType h

theorem kept_inside {token left : SemanticToken} (h : left ∈ kept added token) :
    Inside left token := by
  unfold kept at h
  split_ifs at h
  · rw [List.mem_singleton.mp h]
    exact ⟨le_rfl, le_rfl⟩
  · exact (fragments_follow le_rfl token.range.le).mem h

/-- The kept tokens and the additions share no byte exactly when the additions fit. -/
theorem forall_apart_iff (htree : Follow tree start stop)
    (hsorted : added.Pairwise fun a b => a.range.start ≤ b.range.start) :
    (∀ a ∈ tree.flatMap (kept added) ++ added, ∀ b ∈ tree.flatMap (kept added) ++ added,
      a ≠ b → Apart a b) ↔ FitsInto tree added := by
  constructor
  · intro h
    have hadded : ∀ a ∈ added, ∀ b ∈ added, a ≠ b → Apart a b := fun a ha b hb =>
      h a (List.mem_append_right _ ha) b (List.mem_append_right _ hb)
    refine ⟨hadded, fun token htoken a ha => ?_⟩
    by_contra hfit
    push Not at hfit
    obtain ⟨hshared, hinside, hne⟩ := hfit
    obtain ⟨position, hposition⟩ := not_forall.mp hshared
    obtain ⟨hin, hina⟩ := not_not.mp hposition
    -- the byte is in what is left of the token, or in another addition inside the token
    by_cases hcovered : ∃ left ∈ kept added token, Covers left position
    · obtain ⟨left, hleft, hcovers⟩ := hcovered
      have hmem : left ∈ tree.flatMap (kept added) := List.mem_flatMap.mpr ⟨token, htoken, hleft⟩
      have hsame : left = a := by
        by_contra hother
        exact h left (List.mem_append_left _ hmem) a (List.mem_append_right _ ha) hother position
          ⟨hcovers, hina⟩
      subst hsame
      by_cases hstring : token.tokenType = .string
      · exact hinside hstring (kept_inside hleft)
      · rw [kept, if_pos hstring] at hleft
        exact hne (List.mem_singleton.mp hleft).symm
    · rw [kept_covers hsorted] at hcovered
      push Not at hcovered
      obtain ⟨hstring, b, hb, hbinside, hbcovers⟩ := hcovered hin
      have hother : b ≠ a := fun heq => hinside hstring (heq ▸ hbinside)
      exact hadded b hb a ha hother position ⟨hbcovers, hina⟩
  · intro h
    have hmixed : ∀ left ∈ tree.flatMap (kept added), ∀ a ∈ added, left ≠ a → Apart left a := by
      intro left hleft a ha hne position hshared
      obtain ⟨token, htoken, hmem⟩ := List.mem_flatMap.mp hleft
      have hcovers := (kept_covers hsorted).mp ⟨left, hmem, hshared.1⟩
      rcases h.tree token htoken a ha with hapart | ⟨hstring, hinside⟩ | rfl
      · exact hapart position ⟨hcovers.1, hshared.2⟩
      · exact hcovers.2 hstring a ha hinside hshared.2
      · by_cases hstring : token.tokenType = .string
        · exact hcovers.2 hstring token ha ⟨le_rfl, le_rfl⟩ hshared.2
        · rw [kept, if_pos hstring] at hmem
          exact hne (List.mem_singleton.mp hmem)
    intro a ha b hb hne
    rcases List.mem_append.mp ha with ha | ha <;> rcases List.mem_append.mp hb with hb | hb
    · exact (kept_follow htree).apart ha hb hne
    · exact hmixed a ha b hb hne
    · exact (hmixed b hb a ha hne.symm).symm
    · exact h.apart a ha b hb hne

/-- The stream shares no byte between two tokens exactly when the additions fit. -/
theorem pairwise_apart_mergeAdditions (htree : Follow tree start stop)
    (hsorted : added.Pairwise fun a b => a.range.start ≤ b.range.start) :
    (mergeAdditions tree added).Pairwise Apart ↔ FitsInto tree added := by
  unfold mergeAdditions
  split_ifs with hempty
  · subst hempty
    exact iff_of_true htree.pairwise_apart ⟨fun _ h => (nomatch h), fun _ _ _ h => (nomatch h)⟩
  · rw [Spans.pairwise_apart_destutter (fun a b hkey => congrArg TextRange.start hkey)
      (fun a b hkey => congrArg TextRange.stop hkey)]
    exact forall_apart_iff htree hsorted

theorem pairwise_start_mergeAdditions (htree : Follow tree start stop) :
    (mergeAdditions tree added).Pairwise fun a b => a.range.start ≤ b.range.start := by
  unfold mergeAdditions
  split_ifs
  · exact htree.pairwise_start
  · refine List.Pairwise.imp start_mono ?_
    exact Dedup.pairwise_destutter_sortByKey (· ≠ ·)

/-- The bytes of a kind: those of the additions, and those of the tree that no addition is cut out
of. -/
theorem mergeAdditions_covers (hsorted : added.Pairwise fun a b => a.range.start ≤ b.range.start)
    {kind : SemanticTokenType} {position : Nat} :
    (∃ token ∈ mergeAdditions tree added, token.tokenType = kind ∧ Covers token position) ↔
      (∃ a ∈ added, a.tokenType = kind ∧ Covers a position) ∨
        ∃ token ∈ tree, token.tokenType = kind ∧ Covers token position ∧
          (token.tokenType = .string → ∀ a ∈ added, Inside a token → ¬Covers a position) := by
  unfold mergeAdditions
  split_ifs with hempty
  · subst hempty
    simp
  · simp only [Dedup.mem_destutter_ne, (StableSort.perm_sortByKey _ _).mem_iff, List.mem_append,
      List.mem_flatMap]
    constructor
    · rintro ⟨left, ⟨token, htoken, hleft⟩ | ha, hkind, hcovers⟩
      · exact .inr ⟨token, htoken, (kept_tokenType hleft).symm.trans hkind,
          (kept_covers hsorted).mp ⟨left, hleft, hcovers⟩⟩
      · exact .inl ⟨left, ha, hkind, hcovers⟩
    · rintro (⟨a, ha, hkind, hcovers⟩ | ⟨token, htoken, hkind, hcovers⟩)
      · exact ⟨a, .inr ha, hkind, hcovers⟩
      · obtain ⟨left, hleft, hcovers⟩ := (kept_covers hsorted).mpr hcovers
        exact ⟨left, .inl ⟨token, htoken, hleft⟩, (kept_tokenType hleft).trans hkind, hcovers⟩

end

/-- The byte is in the viewport. -/
def Requested (viewport : Option TextRange) (position : Nat) : Prop :=
  ∀ requested ∈ viewport, requested.start ≤ position ∧ position < requested.stop

/-- A token on a byte of the viewport reaches into it. -/
theorem outside_eq_false {viewport : Option TextRange} {token : SemanticToken} {position : Nat}
    (hrequested : Requested viewport position) (hcovers : Covers token position) :
    outside viewport token.range = false := by
  unfold outside
  cases viewport with
  | none => rfl
  | some requested =>
    have hin := hrequested requested rfl
    have htoken : token.range.start ≤ position ∧ position < token.range.stop := hcovers
    simp only [Option.any_some, Bool.or_eq_false_iff, decide_eq_false_iff_not]
    omega

/-- A stream that a client can read: sorted, without overlaps, and on the viewport the stream of the
whole document. -/
structure ValidStream (viewport : Option TextRange) (full tokens : List SemanticToken) : Prop where
  sorted : tokens.Pairwise fun a b => a.range.start ≤ b.range.start
  disjoint : tokens.Pairwise Apart
  covers : ∀ position, Requested viewport position → ∀ kind : SemanticTokenType,
    (∃ token ∈ full, token.tokenType = kind ∧ Covers token position) ↔
      ∃ token ∈ tokens, token.tokenType = kind ∧ Covers token position

/-- `MAX_DOCUMENT_BYTES`, which `didOpen` and `didChange` check. -/
def maxDocumentBytes : Nat := 16 * 1024 * 1024

/-- A script document of the server. -/
structure ScriptDocument where
  source : Str
  checked : byteLen source ≤ maxDocumentBytes
  parsed : Syntax
  parses : parse .script source = some parsed.file

theorem lt_of_checked {source : Str} (h : byteLen source ≤ maxDocumentBytes) :
    byteLen source < 2 ^ 30 := by
  have : maxDocumentBytes < 2 ^ 30 := by decide
  omega

namespace ScriptDocument

variable (document : ScriptDocument)

theorem inOrder : document.parsed.root.InOrder := by
  obtain ⟨file, root, hparse, hroot, horder, -⟩ :=
    Script.exists_root (lt_of_checked document.checked)
  obtain rfl := Option.some.inj (document.parses.symm.trans hparse)
  obtain rfl := Option.some.inj (document.parsed.walks.symm.trans hroot)
  exact horder

theorem format : document.parsed.file.format = .script := by
  have hparses := document.parses
  unfold parse parseWithRevision at hparses
  obtain ⟨parts, -, hfile⟩ := Option.map_eq_some_iff.mp hparses
  rw [← hfile]
  rfl

/-- The stream of a document. -/
theorem semanticTokensInRange_eq (snapshot : AnalysisSnapshot) (hir : Option TokenHir)
    (viewport : Option TextRange) :
    semanticTokensInRange snapshot (some ⟨document.parsed, hir⟩) viewport =
      mergeAdditions (treeTokens snapshot ⟨document.parsed, hir⟩ viewport)
        (additions snapshot ⟨document.parsed, hir⟩ viewport) := by
  unfold semanticTokensInRange
  dsimp only
  rw [if_neg (not_not.mpr document.format)]

/-- On the bytes of a viewport its stream is the stream of the whole document. -/
theorem covers_iff (snapshot : AnalysisSnapshot) (hir : Option TokenHir)
    (viewport : Option TextRange)
    {position : Nat} (hrequested : Requested viewport position) (kind : SemanticTokenType) :
    (∃ token ∈ semanticTokensInRange snapshot (some ⟨document.parsed, hir⟩) none,
        token.tokenType = kind ∧ Covers token position) ↔
      ∃ token ∈ semanticTokensInRange snapshot (some ⟨document.parsed, hir⟩) viewport,
        token.tokenType = kind ∧ Covers token position := by
  have hwindowed := treeTokens_windowed snapshot ⟨document.parsed, hir⟩ document.inOrder viewport
  have hreach {token : SemanticToken} (hcovers : Covers token position) :=
    outside_eq_false hrequested hcovers
  have hadded (token : SemanticToken) (hcovers : Covers token position) :
      token ∈ additions snapshot ⟨document.parsed, hir⟩ none ↔
        token ∈ additions snapshot ⟨document.parsed, hir⟩ viewport := by
    rw [@mem_additions_viewport _ _ viewport]
    exact ⟨fun h => ⟨h, hreach hcovers⟩, fun h => h.1⟩
  have htree (token : SemanticToken) (hcovers : Covers token position) :
      token ∈ treeTokens snapshot ⟨document.parsed, hir⟩ none ↔
        token ∈ treeTokens snapshot ⟨document.parsed, hir⟩ viewport := by
    rw [hwindowed.visible, List.mem_filter, hreach hcovers]
    exact ⟨fun h => ⟨h, rfl⟩, fun h => h.1⟩
  rw [semanticTokensInRange_eq, semanticTokensInRange_eq,
    mergeAdditions_covers (additions_sorted _ _ _), mergeAdditions_covers (additions_sorted _ _ _)]
  refine or_congr (exists_congr fun a => ?_) (exists_congr fun token => ?_)
  · constructor
    · rintro ⟨ha, hkind, hcovers⟩
      exact ⟨(hadded a hcovers).mp ha, hkind, hcovers⟩
    · rintro ⟨ha, hkind, hcovers⟩
      exact ⟨(hadded a hcovers).mpr ha, hkind, hcovers⟩
  · constructor
    · rintro ⟨htoken, hkind, hcovers, hfree⟩
      exact ⟨(htree token hcovers).mp htoken, hkind, hcovers, fun hstring a ha hinside hc =>
        hfree hstring a ((hadded a hc).mpr ha) hinside hc⟩
    · rintro ⟨htoken, hkind, hcovers, hfree⟩
      exact ⟨(htree token hcovers).mpr htoken, hkind, hcovers, fun hstring a ha hinside hc =>
        hfree hstring a ((hadded a hc).mp ha) hinside hc⟩

end ScriptDocument

/-! ### A call with a numeric name -/

/-- The parsed file of a text, where its tree can be walked. -/
def syntaxOf (source : Str) : Option Syntax :=
  (parse .script source).bind fun file =>
    match h : file.root with
    | none => none
    | some root => some ⟨file, root, h⟩

theorem parse_of_syntaxOf {source : Str} {syn : Syntax} (h : syntaxOf source = some syn) :
    parse .script source = some syn.file := by
  obtain ⟨file, hparse, hsyn⟩ := Option.bind_eq_some_iff.mp h
  rw [hparse]
  split at hsyn
  · cases hsyn
  · rw [← Option.some.inj hsyn]

def numericSource : Str := "outer = { run = { callee = 123 } }".toList

theorem numericSource_parses : (syntaxOf numericSource).isSome = true := by decide +kernel

def numericDocument : ScriptDocument where
  source := numericSource
  checked := by decide +kernel
  parsed := (syntaxOf numericSource).get numericSource_parses
  parses := parse_of_syntaxOf (Option.some_get numericSource_parses).symm

/-- What the body ` $callee$ = yes ` of `run` gives: the effect `123` has the body ` add_prestige =
1 `. -/
def numericText : Str := "  add_prestige = 1  ".toList

theorem numericText_parses : (syntaxOf numericText).isSome = true := by decide +kernel

def numericPiece (name : Str) (start stop definitionStart definitionStop : Nat) (h : start ≤ stop)
    (h' : definitionStart ≤ definitionStop) (parameters : Finset Str) : Hir.SourcePiece where
  origin := ("scripted_effect".toList, name)
  range := ⟨start, stop, h⟩
  definitionRange := ⟨definitionStart, definitionStop, h'⟩
  script := false
  parameters := parameters
  bindingName := none
  bindingSource := none
  hole := false
  uncertainText := false
  structuralHole := false

/-- The frame of `run` in front of the call. -/
def numericView : Hir.RenderedText where
  text := " 123 = yes ".toList
  pieces := [
    numericPiece "run".toList 0 1 7 8 (by decide) (by decide) ∅,
    { numericPiece "run".toList 1 4 8 16 (by decide) (by decide) {"callee".toList} with
      bindingName := some "callee".toList
      bindingSource := some ⟨"callee".toList, 0, false, false, [0, 1, 2, 3]⟩ },
    numericPiece "run".toList 4 11 16 23 (by decide) (by decide) ∅]

def numericInstance : TemplateInstance where
  rendered := {
    text := numericText
    pieces := [
      numericPiece "run".toList 0 1 7 8 (by decide) (by decide) ∅,
      numericPiece "123".toList 1 19 7 25 (by decide) (by decide) {"callee".toList},
      numericPiece "run".toList 19 20 22 23 (by decide) (by decide) ∅]
    calls := [{
      kind := "scripted_effect".toList
      name := "123".toList
      source := bindingRange numericView ⟨1, 4, by decide⟩
      site := {
        view := numericView
        schema := 0
        state := ⟨.known ["country".toList], [.known ["country".toList]], [], []⟩
        keyRange := ⟨1, 4, by decide⟩ } }] }
  hir := { syn := (syntaxOf numericText).get numericText_parses }

/-- Both definitions are scripted effects, and field 7 is the key of their calls. -/
def numericSnapshot : AnalysisSnapshot where
  templateKind field := if field = 7 then some "scripted_effect".toList else none
  analyseBody _ invocation _ := if invocation.key = "run".toList then some numericInstance else none

def numericHir : TokenHir where
  syn := numericDocument.parsed
  properties := Hir.collectNode numericDocument.parsed.file [] numericDocument.parsed.root
  fieldFactAt range := if range = ⟨10, 13, by decide⟩ then some [7] else none
  definitions := [("scripted_effect".toList, ⟨0, 5, by decide⟩)]

/-- The number `123` is also the name of the effect that the body calls: two tokens on one range. -/
theorem semanticTokens_overlap :
    ¬ValidStream none
      (semanticTokensInRange numericSnapshot (some ⟨numericDocument.parsed, some numericHir⟩) none)
      (semanticTokensInRange numericSnapshot (some ⟨numericDocument.parsed, some numericHir⟩)
        none) := by
  intro hvalid
  have : Std.Symm Apart := ⟨fun _ _ => Spans.Apart.symm⟩
  have hapart : Apart ⟨⟨27, 30, by decide⟩, .number, false⟩
    ⟨⟨27, 30, by decide⟩, .function, false⟩ :=
    hvalid.disjoint.forall (by decide +kernel) (by decide +kernel) (by decide)
  exact hapart 27 ⟨⟨by decide, by decide⟩, by decide, by decide⟩

end ParadoxCode.Ide.SemanticTokens
