import ParadoxCode.Format.Localisation
import ParadoxCode.Format.Paths

/-!
# Formatting scripts

`format/script.rs`. A method of the formatter that recurses over the tree is a field of `Layouts`,
the layouts of one node, which are made from the layouts of its children; the depth of the
indentation and the mode stay arguments. The lines of a quoted script come from the formatter one
quotation deeper.
-/

namespace ParadoxCode.Format

open ParadoxCode.Parser

/-- `MAX_QUOTED_SCRIPT_DEPTH`. -/
def maxQuotedScriptDepth : Nat := 64

inductive ValueLayout where
  | inline (text : Str) (widthSensitive : Bool)
  | expanded (opener : Str) (body : List Str) (closer : Str)
  deriving DecidableEq

/-! ## Keywords -/

/-- The fixed script keywords in any case, and their capitals. -/
def keywords : List (Str × Str) :=
  ["AND", "OR", "NOT", "ROOT", "FROM", "PREV", "THIS"].flatMap fun word =>
    [(word.toList, word.toList), (bomChar :: word.toList, bomChar :: word.toList)]

/-- Canonical spelling of the fixed script keywords; any other text is returned unchanged. -/
def canonicalKeyword (text : Str) : Str :=
  match keywords.find? fun keyword => eqIgnoreAsciiCase text keyword.1 with
  | some keyword => keyword.2
  | none => text

/-- Canonical spelling of a bare scalar. -/
def canonicalScalar (text : Str) : Str :=
  let keyword := canonicalKeyword text
  if isAssetPathSpelling keyword then normalizeAssetPathSeparators keyword else keyword

/-! ## Parts of nodes -/

def isScalarNode (node : CstNode) : Bool := node.kind == .bareValue || node.kind == .quotedString

mutual

def nodeHasComment : CstNode → Bool
  | .mk kind _ children => kind == .comment || anyHasComment children

def anyHasComment : List CstNode → Bool
  | [] => false
  | node :: nodes => nodeHasComment node || anyHasComment nodes

end

def hasSemanticItem (root : CstNode) : Bool :=
  root.children.any fun node =>
    node.kind == .property || node.kind == .headerBlock || node.kind == .parameterBlock

/-- `quoted_script`, less the bound on the depth. -/
def quotedScript (source : Str) : Option Document :=
  if containsLineBreak source then
    (parseQuotedScript source).filter fun doc =>
      doc.file.errors.isEmpty && hasSemanticItem doc.root
  else none

/-! ## Lines -/

/-- The lines of a layout behind a prefix. -/
def compose (before : Str) (layout : ValueLayout) : List Str :=
  match layout with
  | .inline text _ => [before ++ text]
  | .expanded opener body closer => (before ++ opener) :: body ++ [closer]

/-- `last.push_str(suffix)`, where there is a last line. -/
def appendToLast (lines : List Str) (suffix : Str) : List Str :=
  match lines.getLast? with
  | some last => lines.dropLast ++ [last ++ suffix]
  | none => []

/-- The layouts of one node. `plain` is `value` without its look through a value node. -/
structure Layouts where
  node : CstNode
  plain : Nat → Bool → Bool → ValueLayout
  value : Nat → Bool → Bool → ValueLayout
  item : Nat → List Str
  inlineItem : Nat → Option Str
  compactItem : Nat → Option Str

def Layouts.kind (layouts : Layouts) : CstKind := layouts.node.kind

/-- `property_parts`. -/
def propertyParts (children : List Layouts) : Option (Layouts × Layouts × Layouts) := do
  let key ← children.find? fun child => child.kind == .key
  let operator ← children.find? fun child => child.kind == .operator
  let value ← children.find? fun child => child.kind == .value
  some (key, operator, value)

/-- `header_parts`. -/
def headerParts (children : List Layouts) : Option (Layouts × Layouts) := do
  let header ← children.head?
  let block ← children.find? fun child => child.kind == .block
  some (header, block)

section

variable (width : Char → Option Nat) (doc : Document) (inner : Str → Option (List Str))

def sameSourceLine (left right : CstNode) : Bool :=
  match doc.text (rangeOr left.range.stop right.range.start left.range.stop) with
  | none => false
  | some gap => !containsLineBreak gap

def sequence (depth : Nat) : List Layouts → List Str
  | [] => []
  | [child] =>
    if child.kind = .bom then []
    else if child.kind = .comment then [indent depth ++ doc.nodeText child.node]
    else child.item depth
  | child :: next :: rest =>
    if child.kind = .bom then sequence depth (next :: rest)
    else if child.kind = .comment then
      (indent depth ++ doc.nodeText child.node) :: sequence depth (next :: rest)
    else if next.kind = .comment ∧ sameSourceLine doc child.node next.node then
      appendToLast (child.item depth) (' ' :: doc.nodeText next.node) ++ sequence depth rest
    else child.item depth ++ sequence depth (next :: rest)

def quoted (node : CstNode) (depth : Nat) (compact forceExpand : Bool) : ValueLayout :=
  let source := doc.nodeText node
  match inner source with
  | none =>
    if isAssetPathSpelling source then .inline (normalizeAssetPathSeparators source) false
    else .inline source false
  | some [] => .inline source false
  | some (first :: rest) =>
    if compact || (!forceExpand && rest.isEmpty && !containsLineBreak first) then
      .inline ('"' :: encodeQuotedScriptText first ++ ['"']) true
    else
      .expanded ['"']
        ((first :: rest).map fun line => indent (depth + 1) ++ encodeQuotedScriptText line)
        (indent depth ++ ['"'])

/-- `{ items }`. -/
def braces (items : List Str) : Str :=
  if items.isEmpty then "\x7b \x7d".toList else "\x7b ".toList ++ join [' '] items ++ " \x7d".toList

/-- The block over several lines, with a leading comment behind its brace. -/
def expandedBlock (children : List Layouts) (depth : Nat) : ValueLayout :=
  match children with
  | first :: rest =>
    if first.kind = .comment then
      .expanded ("\x7b ".toList ++ doc.nodeText first.node) (sequence doc (depth + 1) rest)
        (indent depth ++ ['}'])
    else .expanded ['{'] (sequence doc (depth + 1) children) (indent depth ++ ['}'])
  | [] => .expanded ['{'] [] (indent depth ++ ['}'])

/-- The block on one line, where its children allow it. -/
def inlineBlock (children : List Layouts) (depth : Nat) : Option ValueLayout :=
  if children.isEmpty then some (.inline "\x7b \x7d".toList false)
  else
    match if children.all fun child => isScalarNode child.node then
        children.mapM fun child => child.inlineItem depth else none with
    | some items => some (.inline (braces items) false)
    | none =>
      match children with
      | [child] =>
        if child.kind = .property then
          (child.inlineItem depth).map fun property => .inline (braces [property]) true
        else none
      | _ => none

def compactItems (children : List Layouts) (depth : Nat) : Option (List Str) :=
  (children.filter fun child => child.kind != .bom).mapM fun child => child.compactItem depth

def block (children : List Layouts) (depth : Nat) (compact forceExpand : Bool) : ValueLayout :=
  match if compact then compactItems children depth else none with
  | some items => .inline (braces items) false
  | none =>
    let hasComment := children.any fun child => child.kind == .comment
    if !forceExpand && !hasComment then
      (inlineBlock children depth).getD (expandedBlock doc children depth)
    else expandedBlock doc children depth

def headerValue (node : CstNode) (children : List Layouts) (depth : Nat)
    (compact forceExpand : Bool) : ValueLayout :=
  match headerParts children with
  | none => .inline (trim (doc.nodeText node)) false
  | some (header, block) =>
    let header := canonicalKeyword (doc.nodeText header.node)
    match block.plain depth compact forceExpand with
    | .inline text widthSensitive => .inline (header ++ ' ' :: text) widthSensitive
    | .expanded opener body closer => .expanded (header ++ ' ' :: opener) body closer

def parameter (node : CstNode) (children : List Layouts) (depth : Nat) (compact : Bool) :
    ValueLayout :=
  match children with
  | condition :: body =>
    if condition.kind = .parameterCondition then
      let conditionText := doc.nodeText condition.node
      if compact || !nodeHasComment node then
        let items : Option (List Str) := body.mapM fun child => child.compactItem depth
        .inline ("[[".toList ++ conditionText ++ ']' :: join [' '] (items.getD []) ++ [']']) false
      else
        .expanded ("[[".toList ++ conditionText ++ [']']) (sequence doc (depth + 1) body)
          (indent depth ++ [']'])
    else .inline (trim (doc.nodeText node)) false
  | [] => .inline (trim (doc.nodeText node)) false

/-- The second try of a layout that does not fit on its line. -/
def fitOrExpand (before : Str) (layout : Bool → ValueLayout) : ValueLayout :=
  match layout false with
  | .inline text true =>
    if fitsLine width (before ++ text) then layout false else layout true
  | _ => layout false

def property (node : CstNode) (children : List Layouts) (depth : Nat) : List Str :=
  match propertyParts children with
  | none => [indent depth ++ trim (doc.nodeText node)]
  | some (key, operator, value) =>
    let before := indent depth ++ canonicalKeyword (doc.nodeText key.node) ++
      ' ' :: trim (doc.nodeText operator.node) ++ [' ']
    compose before (fitOrExpand width before (value.value depth false))

def headerItem (node : CstNode) (children : List Layouts) (depth : Nat) : List Str :=
  match headerParts children with
  | none => [indent depth ++ trim (doc.nodeText node)]
  | some (header, block) =>
    let before := indent depth ++ canonicalKeyword (doc.nodeText header.node) ++ [' ']
    compose before (fitOrExpand width before (block.plain depth false))

/-- The text of a layout that stays on its line. -/
def ValueLayout.oneLine (layout : ValueLayout) : Option Str :=
  match layout with
  | .inline text _ => if containsLineBreak text then none else some text
  | .expanded _ _ _ => none

/-- The text of an inline layout. -/
def ValueLayout.inline? (layout : ValueLayout) : Option Str :=
  match layout with
  | .inline text _ => some text
  | .expanded _ _ _ => none

/-- `key operator value`. -/
def assignment (key operator : Layouts) (value : Str) : Str :=
  canonicalKeyword (doc.nodeText key.node) ++ ' ' :: trim (doc.nodeText operator.node) ++
    ' ' :: value

def inlineProperty (children : List Layouts) (depth : Nat) : Option Str := do
  let (key, operator, value) ← propertyParts children
  let value ← (value.value depth false false).oneLine
  let property := assignment doc key operator value
  if fitsLine width property then some property else none

def compactProperty (children : List Layouts) (depth : Nat) : Option Str := do
  let (key, operator, value) ← propertyParts children
  let value ← (value.value depth true false).inline?
  some (assignment doc key operator value)

/-- `header value`. -/
def headed (header : Layouts) (value : Str) : Str :=
  canonicalKeyword (doc.nodeText header.node) ++ ' ' :: value

/-- `value` on a node that is not a value node. -/
def plainValue (node : CstNode) (children : List Layouts) (depth : Nat)
    (compact forceExpand : Bool) : ValueLayout :=
  match node.kind with
  | .bareValue => .inline (canonicalScalar (doc.nodeText node)) false
  | .quotedString => quoted doc inner node depth compact forceExpand
  | .block => block doc children depth compact forceExpand
  | .headerBlock => headerValue doc node children depth compact forceExpand
  | .parameterBlock => parameter doc node children depth compact
  | _ => .inline (canonicalKeyword (trim (doc.nodeText node))) false

def value (node : CstNode) (children : List Layouts) (depth : Nat) (compact forceExpand : Bool) :
    ValueLayout :=
  if node.kind = .value then
    match children.head? with
    | some child => child.plain depth compact forceExpand
    | none => plainValue doc inner node children depth compact forceExpand
  else plainValue doc inner node children depth compact forceExpand

def item (node : CstNode) (children : List Layouts) (depth : Nat) : List Str :=
  match node.kind with
  | .property => property width doc node children depth
  | .headerBlock => headerItem width doc node children depth
  | .parameterBlock => compose (indent depth) (parameter doc node children depth false)
  | .bareValue | .quotedString =>
    compose (indent depth) (value doc inner node children depth false false)
  | .comment => [indent depth ++ doc.nodeText node]
  | .value => children.head?.elim [] fun child => child.item depth
  | _ => [indent depth ++ trim (doc.nodeText node)]

def inlineItem (node : CstNode) (children : List Layouts) (depth : Nat) : Option Str :=
  match node.kind with
  | .bareValue => some (canonicalScalar (doc.nodeText node))
  | .quotedString => (quoted doc inner node depth false false).oneLine
  | .property => inlineProperty width doc children depth
  | .headerBlock => do
    let (header, block) ← headerParts children
    let text ← (block.plain depth false false).oneLine
    some (headed doc header text)
  | .block => (block doc children depth false false).oneLine
  | .parameterBlock => (parameter doc node children depth false).inline?
  | _ => none

def compactItem (node : CstNode) (children : List Layouts) (depth : Nat) : Option Str :=
  match node.kind with
  | .bareValue => some (canonicalScalar (doc.nodeText node))
  | .quotedString => (quoted doc inner node depth true false).inline?
  | .property => compactProperty doc children depth
  | .headerBlock => do
    let (header, block) ← headerParts children
    let text ← (block.plain depth true false).inline?
    some (headed doc header text)
  | .block => (block doc children depth true false).inline?
  | .parameterBlock => (parameter doc node children depth true).inline?
  | _ => none

/-! ## The document -/

mutual

def layouts : CstNode → Layouts
  | .mk kind range children =>
    let node := CstNode.mk kind range children
    let children := allLayouts children
    { node
      plain := plainValue doc inner node children
      value := value doc inner node children
      item := item width doc inner node children
      inlineItem := inlineItem width doc inner node children
      compactItem := compactItem doc inner node children }

def allLayouts : List CstNode → List Layouts
  | [] => []
  | node :: nodes => layouts node :: allLayouts nodes

end

/-- `document_lines`, where quoted scripts are formatted by `inner`. -/
def linesWith : List Str :=
  match allLayouts width doc inner doc.root.children with
  | first :: rest =>
    if first.kind = .bom then insertBom (sequence doc 0 rest) else sequence doc 0 (first :: rest)
  | [] => []

end

/-- `document_lines` with a number of quotations left. -/
def documentLines (width : Char → Option Nat) : Nat → Document → List Str
  | 0, doc => linesWith width doc fun _ => none
  | left + 1, doc => linesWith width doc fun source =>
    (quotedScript source).map (documentLines width left)

/-- `format_script`. -/
def formatScript (width : Char → Option Nat) (doc : Document) : Str :=
  joinLines (documentLines width maxQuotedScriptDepth doc)

end ParadoxCode.Format
